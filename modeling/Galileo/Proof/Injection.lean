import Galileo.Proof.Forms
import Galileo.Proof.Pointers

/-!
# Header injection

A value in a header block comes from one of three places: the field of a form with the parameters of
its request, the URL of a redirection, and the type of a response. `Fcgi.Clean` says of each what
must not have a CR or an LF in it: the *pieces* of the field, one by one as the records bring them,
the two parameters when the request is started, and the status line. What `fcgi_parse_form` has put
together then has none either (`Fcgi.Spotless`), and nor has what `proxy_resurl` makes of a URL
(`proxyResurl_oneLine`), so every block is the proxy's own.
-/

set_option autoImplicit false

namespace Galileo

open Lib Lib.FastCgi Lib.Run

theorem oneLine_append {s t : Bytes} : OneLine (s ++ t) ↔ OneLine s ∧ OneLine t := by
  simp only [OneLine, List.mem_append, not_or]
  exact and_and_and_comm

theorem OneLine.of_subset {s t : Bytes} (h : OneLine t) (hs : s ⊆ t) : OneLine s :=
  ⟨fun hmem => h.1 (hs hmem), fun hmem => h.2 (hs hmem)⟩

/-! ## What comes in -/

/-- What `fcgi_parse_form` takes of the C string of a record: up to a `&`, or else up to a CR, and
the first time from behind a `q=`. -/
def Client.piece (c : Client) (tmp : Bytes) : Bytes :=
  match c.cltBody with
  | some _ => (cutForm tmp).1
  | none => ((strstr (lit "q=") tmp).map fun s => (cutForm (s.drop 2)).1).getD []

/-- A status line whose type is on one line, or whose URL is, with what `proxy_resurl` puts in front
of it and may read behind it. Of a gemtext type nothing is passed on. -/
structure LineClean (c : Client) (mem hdr : Bytes) : Prop where
  mime : ∀ mime ∈ successMime hdr, (lit "text/gemini").isPrefixOf mime = true ∨ OneLine mime
  url : ∀ url ∈ redirectUrl hdr, OneLine (cstr url) ∧ OneLine (c.cltScriptName.getD []) ∧
    (Overrun c (cstr url) 1025 → OneLine (cstrPast mem url).2)

instance (c : Client) (mem hdr : Bytes) : Decidable (LineClean c mem hdr) :=
  decidable_of_iff (_ ∧ _) ⟨fun h => ⟨h.1, h.2⟩, fun h => ⟨h.mime, h.url⟩⟩

/-- The status line an event completes is such a line. -/
def Fcgi.StatusClean (f : Fcgi) : Event → Prop
  | .upstream i oob bytes =>
      ∀ c ∈ f.find i.toUInt32, ∀ l ∈ c.statusLine oob bytes, LineClean c l.2 l.1
  | _ => True

instance (f : Fcgi) (e : Event) : Decidable (f.StatusClean e) := by
  cases e <;> unfold Fcgi.StatusClean <;> infer_instance

/-- The event brings no CR and no LF into a value. -/
structure Fcgi.Clean (f : Fcgi) (e : Event) : Prop where
  form : ∀ c ∈ f.fcgClients, f.feeds e c → OneLine (c.piece f.formText)
  params : ∀ c ∈ f.fcgClients, f.starts e c → c.cltBody.isSome = true →
    OneLine (c.cltScriptName.getD []) ∧ OneLine (c.cltPathInfo.getD [])
  status : f.StatusClean e

instance (f : Fcgi) (e : Event) : Decidable (f.Clean e) :=
  decidable_of_iff (_ ∧ _ ∧ _) ⟨fun h => ⟨h.1, h.2.1, h.2.2⟩, fun h => ⟨h.form, h.params, h.status⟩⟩

/-! ## What is stored -/

theorem formChunk_body {tmp : Bytes} {c : Client} {body : Bytes}
    (h : (formChunk tmp c).cltBody = some body) :
    c.cltBody = some body ∨ body = c.cltBody.getD [] ++ c.piece tmp := by
  unfold formChunk at h
  split at h
  · exact .inl h
  split at h
  · cases h
  split at h
  · rename_i front hbody
    cases h
    right
    rw [Client.piece, hbody]
    rfl
  rename_i hbody
  split at h
  · exact .inl h
  split at h
  · exact .inl h
  · rename_i s hs
    cases h
    right
    rw [Client.piece, hbody, hs]
    rfl

theorem fcgiParseParams_body (env : Env) (s : ParamSt) :
    (fcgiParseParams env s).2.clt.cltBody = s.clt.cltBody := by
  refine fcgiParseParams_stored (R := fun c d : Client => d.cltBody = c.cltBody) env (fun _ => rfl)
    (fun _ _ _ h h' => h'.trans h) (fun pname vlen put v c h => ?_) s
  unfold paramStore at h
  split_ifs at h
  all_goals
    cases h
    rfl

/-- Only a record of the form changes what is stored of it. -/
theorem Fate.body {env : Env} {fed : Client → Bytes → Prop} {started : Bool} {c d : Client}
    (h : Fate env fed started c d) :
    d.cltBody = c.cltBody ∨ ∃ tmp, fed c tmp ∧ d.cltBody = (formChunk tmp c).cltBody := by
  have hof {n : Next} {c' : Client} {tp : Template} (hnext : n = .goes c') (h : n.Of c) :
      ({ c' with cltTp := tp } : Client).cltBody = c.cltBody := by
    rw [hnext] at h
    exact h.body
  cases h with
  | same => exact .inl rfl
  | params s => exact .inl (fcgiParseParams_body env s)
  | form hfed => exact .inr ⟨_, hfed, rfl⟩
  | start hd hnext =>
    obtain ⟨hkept, -⟩ := startScript_goes hnext
    rcases hd with rfl | rfl <;> exact .inl hkept.body
  | resolved _ hnext => exact .inl (hof hnext (resolvedScript_of _ _))
  | connect _ hnext => exact .inl (hof hnext (connectScript_of _))
  | upstream _ hnext => exact .inl (hof hnext (upstreamScript_of _ _))

/-- No form that is stored has a CR or an LF. -/
structure Fcgi.Spotless (f : Fcgi) : Prop where
  keyed : f.Keyed
  wf : f.abs.Wf
  bodies : ∀ c ∈ f.fcgClients, ∀ body, c.cltBody = some body → OneLine body

theorem spotless_new (writes : List Bool) (asr : List AsrAnswer) :
    (Fcgi.new writes asr).Spotless where
  keyed := ⟨by simp [Fcgi.ids, Fcgi.new], by simp [Fcgi.ids, Fcgi.new]⟩
  wf := Conn.wf_opened
  bodies := fun c hc => by cases hc

section Clean

variable {f : Fcgi} {e : Event}

/-- **One event keeps them so.** -/
theorem Fcgi.Spotless.step (env : Env) (hf : f.Spotless) (he : f.Clean e) :
    (step env f e).Spotless where
  keyed := (step_grows env f e).keyed hf.keyed
  wf := @wf_run f env hf.wf [e]
  bodies := by
    intro d hd body hbody
    obtain ⟨os, -, hall⟩ := step_fates env (hf.keyed.distinct hf.wf) e
    rcases hall d hd with ⟨i, n, rfl⟩ | ⟨c, hc, hfate⟩
    · cases hbody
    have hold (front : Bytes) (hfront : c.cltBody = some front) : OneLine front :=
      hf.bodies c hc front hfront
    rcases hfate.body with hsame | ⟨tmp, ⟨hfeeds, rfl⟩, hfed⟩
    · exact hold body (hsame ▸ hbody)
    rw [hfed] at hbody
    rcases formChunk_body hbody with hsame | rfl
    · exact hold body hsame
    refine oneLine_append.mpr ⟨?_, he.form c hc hfeeds⟩
    cases hfront : c.cltBody with
    | none => exact ⟨List.not_mem_nil, List.not_mem_nil⟩
    | some front => exact hold front hfront

/-! ## What is written -/

theorem copyFits_eq_some {len : Nat} {src buf : Bytes} (h : copyFits len src = some buf) :
    buf = src ∧ src.length < len := by
  rw [copyFits] at h
  split_ifs at h with hlen
  exact ⟨(Option.some.inj h).symm, Nat.not_le.mp hlen⟩

/-- The URL, or its end with the script name in front; and what is behind it in memory, if there is
nothing left of it. -/
theorem proxyResurl_oneLine {c : Client} {url past buf : Bytes} {len : Nat}
    (hurl : OneLine url) (hscript : OneLine (c.cltScriptName.getD []))
    (hpast : Overrun c url len → OneLine past)
    (h : proxyResurl c url past len = some (some buf)) : OneLine buf := by
  unfold proxyResurl at h
  split at h
  · cases h
  rename_i name hname
  split at h
  · cases h
  split at h
  · cases h
  rename_i pc hpc
  split at h
  · rw [(copyFits_eq_some (Option.some.inj h)).1]
    exact hurl
  rename_i rest hstrip
  have hrest : OneLine rest := hurl.of_subset (suffix_of_stripAuthority hstrip).subset
  split at h
  · split at h
    · cases h
    rename_i script hprfx
    obtain ⟨rfl, hfits⟩ := copyFits_eq_some (Option.some.inj h)
    rw [hprfx] at hscript
    refine oneLine_append.mpr ⟨hscript, ?_⟩
    split
    · rename_i hempty
      rw [List.isEmpty_iff.mp hempty] at hstrip
      refine hpast ⟨name, pc, script, hname, hpc, hprfx, ?_, stripAuthority_eq_nil_iff.mp hstrip⟩
      rw [List.length_append] at hfits
      omega
    · exact hrest.of_subset (List.tail_subset rest)
  · rw [(copyFits_eq_some (Option.some.inj h)).1]
    exact hrest

theorem LineClean.value {c : Client} {mem hdr : Bytes} (hline : LineClean c mem hdr) {h : Head}
    (hh : statusHead c mem hdr = some h) : OneLine h.value := by
  rw [statusHead] at hh
  cases hmime : successMime hdr with
  | some mime =>
    rw [hmime] at hh
    dsimp only at hh
    split_ifs at hh with hsome hany
    · cases hh
      exact (by decide : OneLine (lit "text/html;charset=utf-8"))
    · cases hh
      refine (hline.mime mime hmime).resolve_left fun hgem => hany ?_
      rw [parseMime_gemini hgem]
      rfl
  | none =>
    rw [hmime] at hh
    obtain ⟨v, hv, rfl⟩ := Option.map_eq_some_iff.mp hh
    obtain ⟨url, hurl, hv⟩ := Option.bind_eq_some_iff.mp hv
    obtain ⟨hclean, hscript, hpast⟩ := hline.url url hurl
    rw [← cstrPast_fst mem url] at hclean hpast
    exact proxyResurl_oneLine hclean hscript hpast (Option.join_eq_some_iff.mp hv)

theorem Fcgi.Spotless.formTarget (hf : f.Spotless) (he : f.Clean e) {c : Client}
    (hc : c ∈ f.fcgClients) (hstart : f.starts e c) {v : Bytes} (hv : c.formTarget = some v) :
    OneLine v := by
  rw [Client.formTarget] at hv
  split at hv
  · rename_i path body hpath hbody
    cases hv
    obtain ⟨hscript, hinfo⟩ := he.params c hc hstart (by rw [hbody]; rfl)
    rw [hpath] at hinfo
    have hprfx : OneLine (c.cltScriptName.getD nullString) := by
      cases hname : c.cltScriptName with
      | none => exact (by decide : OneLine nullString)
      | some script => rwa [hname] at hscript
    have htail : OneLine path.tail := hinfo.of_subset (List.tail_subset path)
    have hmark : OneLine (lit "?") := by decide
    exact oneLine_append.mpr
      ⟨oneLine_append.mpr ⟨oneLine_append.mpr ⟨hprfx, htail⟩, hmark⟩, hf.bodies c hc body hbody⟩
  · cases hv

/-- **Every block is the proxy's own.** -/
theorem Fcgi.Spotless.opens (hf : f.Spotless) (he : f.Clean e) {h : Head} (hh : f.Opens e h) :
    OwnFields h.fields := by
  rcases hh with ⟨status, hstatus, rfl⟩ | hh
  · exact ownFields_page status hstatus
  have hline : OneLine h.value := by
    rcases List.mem_append.mp hh with hh | hh
    · obtain ⟨c, hc, hmap⟩ := List.mem_filterMap.mp hh
      obtain ⟨hc, hstart⟩ := List.mem_filter.mp hc
      obtain ⟨v, hv, rfl⟩ := Option.map_eq_some_iff.mp hmap
      exact hf.formTarget he hc (by simp_all) hv
    · have hstatus := he.status
      split at hh
      · obtain ⟨c, hc, hhead⟩ := Option.bind_eq_some_iff.mp (Option.mem_toList.mp hh)
        obtain ⟨l, hl, hhead⟩ := Option.bind_eq_some_iff.mp hhead
        exact (hstatus c hc l hl).value hhead
      · cases hh
  rcases opens_cases hh with ⟨v, rfl⟩ | ⟨v, rfl⟩
  · exact ownFields_redirect hline
  · exact ownFields_content hline

end Clean

/-- **No header injection**, as long as no piece of a form, no parameter of its request and no
status line brings a CR or an LF along: then every answer is a header block of the proxy's own, its
fields on one line each, and behind it a page, or for a redirection nothing. -/
theorem no_header_injection (env : Env) (writes : List Bool) (asr : List AsrAnswer)
    (es : List Event) (hes : Steps (step env) Fcgi.Clean (Fcgi.new writes asr) es) :
    HeadsAre (fun h => OwnFields h.fields) (run env (Fcgi.new writes asr) es).trace :=
  heads_run env writes asr (Steps.of_invariant (fun _ _ hf he => hf.step env he)
    (fun _ _ hf he _ => hf.opens he) (spotless_new writes asr) hes)

/-- The form of the input page is answered with a proper redirection. -/
theorem form_answered_own_fields :
    let f := run exampleEnv (Fcgi.new [] []) (Event.form "q=x")
    HeadsAre (fun h => OwnFields h.fields) f.trace ∧
      (answer 1 f.trace).text
        = headText [⟨lit "Status", lit "302"⟩, cspField, ⟨lit "Location", lit "/?x"⟩] :=
  ⟨no_header_injection exampleEnv [] [] (Event.form "q=x") (by decide +kernel), by decide +kernel⟩

/-- A `&` hides the end of the line from the search for a CR: the form sets a header of its own. -/
theorem form_injects_header :
    let f := run exampleEnv (Fcgi.new [] []) (Event.form "q=x\r\nSet-Cookie: a=b&")
    (answer 1 f.trace).text
        = lit "Status: 302\r\n" ++ csp ++ lit "Location: /?x\r\nSet-Cookie: a=b\r\n\r\n" ∧
      ¬ HeadsAre (fun h => OwnFields h.fields) f.trace := by
  intro f
  refine ⟨by decide +kernel, fun hheads => ?_⟩
  obtain ⟨h, hown, u, hu, hblank, hblock⟩ := hheads.exists_of_last (i := 1) (s := 0)
    (t := lit "Status: 302\r\n" ++ csp ++ lit "Location: /?x\r\nSet-Cookie: a=b\r\n\r\n")
    (by decide +kernel) (by decide +kernel) (by decide +kernel)
  -- the block has five lines, and no block of ours has more than four
  have hfive :
      let t := lit "Status: 302\r\n" ++ csp ++ lit "Location: /?x\r\nSet-Cookie: a=b\r\n\r\n"
      ∀ u ∈ t.tails, ([13, 10, 13, 10] : Bytes) <+: u →
        (t.take (t.length + 4 - u.length)).count 10 = 5 := by decide +kernel
  have hcount := hfive u hu hblank
  rw [← hblock, count_headText hown] at hcount
  cases h with
  | reply status v =>
    rw [Head.fields] at hcount
    split at hcount <;> simp at hcount
  | content v => simp [Head.fields] at hcount

end Galileo
