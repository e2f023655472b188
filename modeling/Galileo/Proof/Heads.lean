import Galileo.Lib.Run
import Galileo.Proof.Delivery
import Galileo.Proof.Voices
import Galileo.Spec.Head

/-!
# How every answer begins

A client is silent until its header block is written, and from then on its answer begins with that
block; whatever the connection does in between, and however the block is cut into records. So all
that can be said about the blocks is said about the few events that write one (`Fcgi.opens`), and
`heads_run` carries it to every point of every run.
-/

set_option autoImplicit false

namespace Galileo

open Lib Lib.FastCgi Lib.Run

variable {ops : List Put} {f : Fcgi} {i : UInt16} {e : Event} {as ps : UInt8} {h : Head}
  {c : Client} {v : Bytes}

theorem pageText_proxyStartReply (status : Nat) (v : Bytes) :
    pageText (proxyStartReply status (some v)) = headText (Head.reply status v).fields := by
  have hstatus : lit "Status" ++ lit ": " = lit "Status: " := by decide
  have hlocation : lit "Location" ++ lit ": " = lit "Location: " := by decide
  have htype : lit "Content-Type" ++ lit ": " = lit "Content-Type: " := by decide
  have hcsp : cspField.text = csp := by decide
  rw [proxyStartReply, headText, Head.fields]
  by_cases h200 : (status != 200) = true <;> by_cases h302 : (status == 302) = true <;>
    simp only [h200, h302, if_true, if_false, Bool.false_eq_true, pageText_append, pageText_cons,
      pageText_nil, Piece.text, text, List.flatMap_append, List.flatMap_cons, List.flatMap_nil,
      List.append_nil, List.nil_append, hcsp, Option.getD_some] <;>
    simp only [Field.text, hstatus, hlocation, htype, List.append_assoc]

theorem contentText (v : Bytes) :
    lit "Content-Type: " ++ v ++ lit "\r\n\r\n" = headText (Head.content v).fields := by
  have htype : lit "Content-Type" ++ lit ": " = lit "Content-Type: " := by decide
  have hend : lit "\r\n" ++ lit "\r\n" = lit "\r\n\r\n" := by decide
  simp only [headText, Head.fields, List.flatMap_cons, List.flatMap_nil, List.append_nil,
    Field.text, htype, List.append_assoc, hend]

/-! ## Where values come from outside -/

/-- What a `3x` line has behind its code. -/
def redirectUrl : Bytes → Option Bytes
  | h0 :: h1 :: h2 :: h3 :: more =>
      if h0 == 51 && isdigit h1 && h2 == 32 then some (h3 :: more) else none
  | _ => none

/-- The target of a `3x` line. -/
def redirectTarget (c : Client) (mem hdr : Bytes) : Option Bytes :=
  (redirectUrl hdr).bind fun url =>
    (proxyResurl c (cstrPast mem url).1 (cstrPast mem url).2 1025).join

/-- The header block a status line makes the proxy write, if a value in it is the server's. -/
def statusHead (c : Client) (mem hdr : Bytes) : Option Head :=
  match successMime hdr with
  | some mime =>
      if (parseMime .zero mime).2.isSome then
        some (.content
          (if (parseMime .zero mime).1.any then lit "text/html;charset=utf-8" else mime))
      else none
  | none => (redirectTarget c mem hdr).map (.reply 302)

/-- The status line that bytes from the server complete, and the memory behind it. -/
def Client.statusLine (c : Client) (oob : Bytes → Bytes) (bytes : Bytes) : Option (Bytes × Bytes) :=
  if c.cltHeadersdone then none
  else c.cltBev.bind fun bev =>
    (readlnCrlfStrict (bev.input ++ bytes)).map fun p => (p.1, oob (bev.input ++ bytes))

/-- The header block such bytes make the proxy write. -/
def Client.upstreamHead (c : Client) (oob : Bytes → Bytes) (bytes : Bytes) : Option Head :=
  (c.statusLine oob bytes).bind fun l => statusHead c l.2 l.1

/-- The header blocks an event makes the proxy write, our own pages apart. -/
def Fcgi.opens (f : Fcgi) (e : Event) : List Head :=
  (f.fcgClients.filter fun c => decide (f.starts e c) && !c.cltHeadersdone).filterMap
      (fun c => c.formTarget.map (.reply 302))
    ++ match e with
      | .upstream i oob bytes =>
          ((f.find i.toUInt32).bind (·.upstreamHead oob bytes)).toList
      | _ => []

/-- A header block the event may write. -/
def Fcgi.Opens (f : Fcgi) (e : Event) (h : Head) : Prop :=
  (∃ status ∈ [200, 400, 501], h = .reply status (lit "text/html")) ∨ h ∈ f.opens e

theorem opens_form (hstart : f.starts e c) (hdone : c.cltHeadersdone = false)
    (hv : c.formTarget = some v) : f.Opens e (.reply 302 v) := by
  refine .inr
    (List.mem_append_left _ (List.mem_filterMap.mpr ⟨c, List.mem_filter.mpr ⟨?_, ?_⟩, ?_⟩))
  · exact List.mem_of_find?_eq_some hstart.2.1
  · simp [hstart, hdone]
  · rw [hv]
    rfl

theorem opens_upstream {oob : Bytes → Bytes} {bytes : Bytes} (hfind : f.find i.toUInt32 = some c)
    (hh : c.upstreamHead oob bytes = some h) :
    f.Opens (.upstream i oob bytes) h := by
  refine .inr (List.mem_append_right _ ?_)
  simp [hfind, hh]

/-! ## How scripts begin -/

/-- Nothing was written, and nothing is being translated. -/
structure Client.Silent (c : Client) : Prop where
  headers : c.cltHeadersdone = false
  translate : c.cltTranslate = .zero

/-- In the middle of a translated page. -/
structure Client.Translating (c : Client) : Prop where
  headers : c.cltHeadersdone = true
  enabled : c.cltTranslate.enabled = true

/-- In the middle of something that is passed on as it is. -/
structure Client.Passing (c : Client) : Prop where
  headers : c.cltHeadersdone = true
  translate : c.cltTranslate = .zero

/-- What is pending when the operations begin goes out before anything else. -/
def Keeps (ops : List Put) : Prop :=
  ∀ cap pending, pending <+: (putAll cap pending ops).1 ++ (putAll cap pending ops).2

theorem Utters.keeps {text : Bytes} (h : Utters ops text) : Keeps ops :=
  fun cap pending => by
    rw [h cap pending]
    exact List.prefix_append _ _

/-- Every operation is a write, so nothing that is pending gets lost. -/
def OnlyWrites (ops : List Put) : Prop := ∀ o ∈ ops, ∃ ps, o = .write ps

theorem OnlyWrites.utters (h : OnlyWrites ops) : ∃ text, Utters ops text := by
  induction ops with
  | nil => exact ⟨[], .nil⟩
  | cons o ops ih =>
    obtain ⟨ps, rfl⟩ := h o (by simp)
    obtain ⟨text, htext⟩ := ih fun o ho => h o (by simp [ho])
    exact ⟨_, (Utters.write ps).append htext⟩

theorem OnlyWrites.keeps (h : OnlyWrites ops) : Keeps ops := by
  obtain ⟨text, htext⟩ := h.utters
  exact htext.keeps

/-- How a script for the client `c` treats the header block; `H` are the blocks it may write. -/
inductive Manner (H : Head → Prop) (c : Client) (s : Script) : Prop
  | mute (hops : s.ops = [])
      (hnext : ∀ c', s.next = .goes c' →
        c'.cltHeadersdone = c.cltHeadersdone ∧ c'.cltTranslate = c.cltTranslate)
  | opens {h : Head} {ps : List Piece} {rest : List Put} (hc : c.Silent) (hh : H h)
      (hpage : h.redirects = false) (hops : s.ops = .write ps :: rest)
      (hps : pageText ps = headText h.fields) (hrest : Keeps rest)
      (hnext : ∀ c', s.next = .goes c' → c'.Translating ∨
        c'.Passing ∧ ∀ cap pending, (putAll cap pending s.ops).2 = [])
  | redirects {h : Head} {ps : List Piece} (hc : c.Silent) (hh : H h)
      (htarget : h.redirects = true) (hops : s.ops = [.write ps])
      (hps : pageText ps = headText h.fields) (hnext : ∀ c', s.next ≠ .goes c')
  | translates (hc : c.Translating) (hops : Keeps s.ops)
      (hnext : ∀ c', s.next = .goes c' → c'.Translating)
  | passes (hc : c.Passing)
      (hnext : ∀ c', s.next = .goes c' → c'.Passing ∧ ∀ cap, (putAll cap [] s.ops).2 = [])

/-- One of the three. -/
def Client.Stands (c : Client) : Prop := c.Silent ∨ c.Translating ∨ c.Passing

section Manners

variable {H : Head → Prop} {c d : Client} {s : Script}

theorem Client.Stands.congr (h : c.Stands) (hdone : d.cltHeadersdone = c.cltHeadersdone)
    (htr : d.cltTranslate = c.cltTranslate) : d.Stands := by
  rcases h with h | h | h
  · exact .inl ⟨hdone.trans h.headers, htr.trans h.translate⟩
  · exact .inr (.inl ⟨hdone.trans h.headers, htr ▸ h.enabled⟩)
  · exact .inr (.inr ⟨hdone.trans h.headers, htr.trans h.translate⟩)

/-- Of the client only two fields matter. -/
theorem Manner.congr (h : Manner H c s) (hdone : c.cltHeadersdone = d.cltHeadersdone)
    (htr : c.cltTranslate = d.cltTranslate) : Manner H d s := by
  cases h with
  | mute hops hnext =>
    refine .mute hops fun c' hc' => ?_
    obtain ⟨h₁, h₂⟩ := hnext c' hc'
    exact ⟨h₁.trans hdone, h₂.trans htr⟩
  | opens hc hh hpage hops hps hrest hnext =>
    exact .opens ⟨hdone ▸ hc.headers, htr ▸ hc.translate⟩ hh hpage hops hps hrest hnext
  | redirects hc hh htarget hops hps hnext =>
    exact .redirects ⟨hdone ▸ hc.headers, htr ▸ hc.translate⟩ hh htarget hops hps hnext
  | translates hc hops hnext =>
    exact .translates ⟨hdone ▸ hc.headers, htr ▸ hc.enabled⟩ hops hnext
  | passes hc hnext => exact .passes ⟨hdone ▸ hc.headers, htr ▸ hc.translate⟩ hnext

theorem Manner.idle (hdone : d.cltHeadersdone = c.cltHeadersdone)
    (htr : d.cltTranslate = c.cltTranslate) : Manner H c (idle d) :=
  .mute rfl fun c' hc' => by
    cases hc'
    exact ⟨hdone, htr⟩

theorem Manner.crashed : Manner H c ⟨[], .crashed⟩ := .mute rfl fun _ h => by cases h

theorem Manner.ended {status proto : UInt8} : Manner H c ⟨[], .ends status proto⟩ :=
  .mute rfl fun _ h => by cases h

theorem onlyWrites_singleton (ps : List Piece) : OnlyWrites [.write ps] := by
  intro o ho
  exact ⟨ps, List.mem_singleton.mp ho⟩

theorem onlyWrites_cons (ps : List Piece) (h : OnlyWrites ops) : OnlyWrites (.write ps :: ops) := by
  intro o ho
  rcases List.mem_cons.mp ho with rfl | ho
  · exact ⟨ps, rfl⟩
  · exact h o ho

/-- A reply that is the whole answer, if nothing was written before. -/
theorem Manner.reply (hc : c.Stands) (hsilent : c.Silent → Manner H c ⟨ops, .ends as ps⟩)
    (hops : OnlyWrites ops) :
    Manner H c ⟨ops, .ends as ps⟩ := by
  rcases hc with hc | hc | hc
  · exact hsilent hc
  · exact .translates hc hops.keeps fun _ h => by cases h
  · exact .passes hc fun _ h => by cases h

theorem Manner.page (hc : c.Stands) {status : Nat} {page : List Piece} (hstatus : status ≠ 302)
    (hh : c.Silent → H (.reply status v)) :
    Manner H c ⟨[.write (proxyStartReply status (some v)), .write page], .ends as ps⟩ := by
  refine .reply hc (fun hsilent => ?_) (onlyWrites_cons _ (onlyWrites_singleton page))
  exact .opens hsilent (hh hsilent) (beq_false_of_ne hstatus) rfl
    (pageText_proxyStartReply status v)
    (onlyWrites_singleton page).keeps fun _ h => by cases h

theorem Manner.redirect (hc : c.Stands) (hh : c.Silent → H (.reply 302 v)) :
    Manner H c ⟨[.write (proxyStartReply 302 (some v))], .ends as ps⟩ := by
  refine .reply hc (fun hsilent => ?_) (onlyWrites_singleton _)
  exact .redirects hsilent (hh hsilent) rfl rfl (pageText_proxyStartReply 302 v) fun _ h => by
    cases h

/-- The lines of a page. -/
theorem linesScript_onlyWrites (oob : Bytes → Bytes) (n : Nat) (c : Client) :
    OnlyWrites (linesScript oob n c).ops ∧ ∀ c', (linesScript oob n c).next = .goes c' →
      c'.cltHeadersdone = c.cltHeadersdone ∧
        c'.cltTranslate.enabled = c.cltTranslate.enabled := by
  have hidle (c : Client) : OnlyWrites (Galileo.idle c).ops ∧
      ∀ c', (Galileo.idle c).next = .goes c' →
        c'.cltHeadersdone = c.cltHeadersdone ∧
        c'.cltTranslate.enabled = c.cltTranslate.enabled := by
    refine ⟨fun o ho => (by cases ho), fun c' hc' => ?_⟩
    cases hc'
    exact ⟨rfl, rfl⟩
  induction n generalizing c with
  | zero => exact hidle c
  | succ n ih =>
    rw [linesScript]
    split
    · exact hidle c
    split
    · exact hidle c
    split
    · exact ⟨fun o ho => (by cases ho), fun c' hc' => (by cases hc')⟩
    · rename_i _ bev hbev _ line rest hline _ ps tr hps
      obtain ⟨hops, hnext⟩ :=
        ih { c with cltBev := some { bev with input := rest }, cltTranslate := tr }
      refine ⟨onlyWrites_cons ps hops, fun c' hc' => ?_⟩
      obtain ⟨hdone, htr⟩ := hnext c' hc'
      exact ⟨hdone, htr.trans (translateLine_enabled hps)⟩

theorem Client.Translating.any (h : c.Translating) : c.cltTranslate.any = true := by
  simp [Translate.any, h.enabled]

theorem Client.Passing.any (h : c.Passing) : c.cltTranslate.any = false := by
  rw [h.translate]
  rfl

theorem bodyScript_translating (oob : Bytes → Bytes) (hc : c.Translating) :
    OnlyWrites (bodyScript oob c).ops ∧ ∀ c', (bodyScript oob c).next = .goes c' →
      c'.Translating := by
  rw [bodyScript]
  split
  · refine ⟨fun o ho => (by cases ho), fun c' hc' => ?_⟩
    cases hc'
    exact hc
  · rw [if_pos hc.any]
    obtain ⟨hops, hnext⟩ := linesScript_onlyWrites oob _ c
    refine ⟨hops, fun c' hc' => ?_⟩
    obtain ⟨hdone, htr⟩ := hnext c' hc'
    exact ⟨hdone.trans hc.headers, htr.trans hc.enabled⟩

theorem bodyScript_passing (oob : Bytes → Bytes) (hc : c.Passing) :
    Keeps (.flush :: (bodyScript oob c).ops) ∧
      ∀ c', (bodyScript oob c).next = .goes c' →
        c'.Passing ∧ ∀ cap, (putAll cap [] (bodyScript oob c).ops).2 = [] := by
  rw [bodyScript]
  split
  · refine ⟨fun cap pending => (by simp [Galileo.idle, putAll, Put.effect]), fun c' hc' => ?_⟩
    cases hc'
    exact ⟨hc, fun cap => rfl⟩
  · rw [if_neg (by simp [hc.any])]
    refine ⟨fun cap pending => by simp [putAll, Put.effect], fun c' hc' => ?_⟩
    cases hc'
    exact ⟨⟨hc.headers, hc.translate⟩, fun cap => rfl⟩

theorem bodyScript_manner (oob : Bytes → Bytes) (hc : c.Translating ∨ c.Passing) :
    Manner H c (bodyScript oob c) := by
  rcases hc with hc | hc
  · obtain ⟨hops, hnext⟩ := bodyScript_translating oob hc
    exact .translates hc hops.keeps hnext
  · exact .passes hc (bodyScript_passing oob hc).2

/-- The start of a successful response. -/
theorem successScript_manner (oob : Bytes → Bytes) (mime : Bytes) (hc : c.Silent)
    (hpage : H (.reply 501 (lit "text/html")))
    (hh : (parseMime .zero mime).2.isSome = true →
      H (.content (if (parseMime .zero mime).1.any then lit "text/html;charset=utf-8" else mime))) :
    Manner H c (successScript oob mime c) := by
  have hkind : (parseMime .zero mime).1.any = true ∧ (parseMime .zero mime).1.enabled = true ∨
      (parseMime .zero mime).1.any = false ∧ (parseMime .zero mime).1 = .zero := by
    cases hgem : (lit "text/gemini").isPrefixOf mime with
    | false =>
      rw [parseMime_other hgem]
      exact .inr ⟨rfl, rfl⟩
    | true =>
      rw [parseMime_gemini hgem]
      exact .inl ⟨rfl, rfl⟩
  rw [successScript, hc.translate]
  generalize parseMime .zero mime = r at hh hkind
  obtain ⟨tr, _ | lang⟩ := r
  · exact .page (.inl hc) (by decide) fun _ => hpage
  · dsimp only at hh hkind ⊢
    have hps (v : Bytes) : pageText [.raw (lit "Content-Type: " ++ v ++ lit "\r\n\r\n")]
        = headText (Head.content v).fields := by
      rw [← contentText, pageText_cons, pageText_nil, List.append_nil]
      rfl
    rcases hkind with ⟨hany, htr⟩ | ⟨hany, htr⟩
    · obtain ⟨hops, hnext⟩ := @bodyScript_translating
        { c with cltTranslate := tr, cltHeadersdone := true } oob ⟨rfl, htr⟩
      refine .opens hc (hh rfl) rfl rfl (hps _) ?_ fun c' hc' => .inl (hnext c' hc')
      rw [if_pos hany]
      exact (onlyWrites_cons _ hops).keeps
    · obtain ⟨hops, hnext⟩ := @bodyScript_passing
        { c with cltTranslate := tr, cltHeadersdone := true } oob ⟨rfl, htr⟩
      refine .opens hc (hh rfl) rfl rfl (hps _) ?_ fun c' hc' => .inr ?_
      · rw [if_neg (by simp [hany])]
        exact hops
      · obtain ⟨hpass, hbuf⟩ := hnext c' hc'
        refine ⟨hpass, fun cap pending => ?_⟩
        have hflush : (if tr.any = true then Put.write (tpHead c lang none) else .flush)
            = .flush := if_neg (by simp [hany])
        simp only [Script.after, hflush, List.cons_append, List.nil_append, putAll, Put.effect]
        exact hbuf cap

theorem errorScript_manner (err : Nat) (hc : c.Stands) (hpage : H (.reply 501 (lit "text/html"))) :
    Manner H c (errorScript err c) := by
  rw [errorScript]
  generalize (if err &&& evbufferEof = 0 then 1 else 0 : UInt8) = status
  split
  · exact .page hc (by decide) fun _ => hpage
  rename_i hdone
  split
  · rcases hc with hc | hc | hc
    · simp [hc.headers] at hdone
    · exact .translates hc (onlyWrites_singleton _).keeps fun _ h => by cases h
    · exact .passes hc fun _ h => by cases h
  · exact .ended

theorem headerScript_manner (oob : Bytes → Bytes) (mem hdr : Bytes) (hc : c.Silent)
    (hpage : ∀ status ∈ [200, 400, 501], H (.reply status (lit "text/html")))
    (hh : ∀ h, statusHead c mem hdr = some h → H h) :
    Manner H c (headerScript oob mem hdr c) := by
  have h501 := hpage 501 (by simp)
  have hfail (code : Nat) (reason : Bytes) : Manner H c (failureScript c code reason) :=
    .page (.inl hc) (by decide) fun _ => h501
  have herror := @errorScript_manner H c evRead (.inl hc) h501
  cases hmime : successMime hdr with
  | some mime =>
    rw [headerScript_success oob mem hmime]
    refine successScript_manner oob mime hc h501 fun hsome => hh _ ?_
    rw [statusHead, hmime]
    exact if_pos hsome
  | none =>
    rw [statusHead, hmime] at hh
    rcases hdr with _ | ⟨h0, _ | ⟨h1, _ | ⟨h2, _ | ⟨h3, more⟩⟩⟩⟩
    case cons.cons.cons.cons =>
      rw [headerScript]
      split
      · rename_i hvalid
        have h50 : ¬ (h0 == 50) = true := by
          intro h
          rw [successMime] at hmime
          simp_all
        rw [statusScript]
        split
        · exact .page (.inl hc) (by decide) fun _ => hpage 200 (by simp)
        -- `h50` has settled the second test
        split
        · rename_i h51
          rw [redirectTarget, redirectUrl, if_pos (by simp_all), Option.bind_some] at hh
          rcases hres : proxyResurl c (cstrPast mem (h3 :: more)).1 (cstrPast mem (h3 :: more)).2
            1025 with _ | _ | buf
          · exact .crashed
          · exact hfail _ _
          · rw [hres] at hh
            exact .redirect (.inl hc) fun _ => hh _ rfl
        · exact hfail _ _
      · exact herror
    all_goals exact herror

theorem upstreamScript_manner (oob : Bytes → Bytes) (bytes : Bytes) (hc : c.Stands)
    (hpage : ∀ status ∈ [200, 400, 501], H (.reply status (lit "text/html")))
    (hh : ∀ h, c.upstreamHead oob bytes = some h → H h) :
    Manner H c (upstreamScript oob bytes c) := by
  rw [upstreamScript]
  split
  · exact .idle rfl rfl
  rename_i bev hbev
  rw [readScript]
  dsimp only
  split
  · rename_i hdone
    refine Manner.congr (bodyScript_manner oob ?_) rfl rfl
    rcases hc with hc | hc | hc
    · rw [hc.headers] at hdone
      cases hdone
    · exact .inl ⟨hc.headers, hc.enabled⟩
    · exact .inr ⟨hc.headers, hc.translate⟩
  · rename_i hdone
    split
    · split
      · exact Manner.congr (errorScript_manner evRead (hc.congr rfl rfl) (hpage 501 (by simp)))
          rfl rfl
      · exact .idle rfl rfl
    · rename_i hdr rest hline
      have hsilent : c.Silent := by
        rcases hc with hc | hc | hc
        · exact hc
        · exact absurd hc.headers hdone
        · exact absurd hc.headers hdone
      refine Manner.congr (headerScript_manner oob _ hdr ⟨hsilent.headers, hsilent.translate⟩ hpage
        fun h hstatus => hh h ?_) rfl rfl
      rw [Client.upstreamHead, Client.statusLine, if_neg hdone, hbev, Option.bind_some, hline]
      exact hstatus

theorem connectScript_manner (net : NetEnv) (hc : c.Stands)
    (hpage : H (.reply 501 (lit "text/html"))) : Manner H c (connectScript net c) := by
  have hfail : Manner H c (failScript c 501 "Can't connect") :=
    .page hc (by decide) fun _ => hpage
  rw [connectScript]
  split
  · exact .idle rfl rfl
  · exact .crashed
  · exact hfail
  · split
    · exact hfail
    · exact .idle rfl rfl

theorem resolvedScript_manner (res : Option (List Addrinfo)) (net : NetEnv) (hc : c.Stands)
    (hpage : H (.reply 501 (lit "text/html"))) : Manner H c (resolvedScript res net c) := by
  unfold resolvedScript
  split
  · exact .crashed
  · exact .page hc (by decide) fun _ => hpage
  · exact Manner.congr (connectScript_manner net (hc.congr rfl rfl) hpage) rfl rfl

theorem startScript_manner (env : Env) (asr : List AsrAnswer) (hc : c.Stands)
    (hpage : ∀ status ∈ [200, 400, 501], H (.reply status (lit "text/html")))
    (hh : c.Silent → ∀ v, c.formTarget = some v → H (.reply 302 v)) :
    Manner H c (startScript env asr c) := by
  rw [startScript]
  split
  · exact .page hc (by decide) fun _ => hpage 501 (by simp)
  rename_i path hpath
  dsimp only
  split
  · exact .page hc (by decide) fun _ => hpage 501 (by simp)
  split
  · exact .page hc (by decide) fun _ => hpage 400 (by simp)
  split
  · rename_i body hbody
    refine .redirect hc fun hsilent => hh hsilent _ ?_
    rw [Client.formTarget, hpath, hbody]
  · unfold resolverScript
    split
    · exact .ended
    · exact .ended
    · exact .idle rfl rfl
    · exact .idle rfl rfl

/-- **Every script an event calls for** opens with one of the event's blocks, or goes on. -/
theorem Cue.manner {env : Env} (hcue : Cue env f e i c s) (hc : c.Stands) :
    Manner (f.Opens e) c s := by
  have hpage : ∀ status ∈ [200, 400, 501], f.Opens e (.reply status (lit "text/html")) :=
    fun status hstatus => .inl ⟨status, hstatus, rfl⟩
  have h501 := hpage 501 (by simp)
  cases hcue with
  | start hstart hvoice htarget =>
    refine startScript_manner env _ hc hpage fun hsilent v hv => ?_
    exact opens_form hstart (hvoice.headers.symm.trans hsilent.headers) (htarget ▸ hv)
  | abort => exact .ended
  | resolved => exact resolvedScript_manner _ _ hc h501
  | connect => exact connectScript_manner _ hc h501
  | upstream he hfind =>
    subst he
    exact upstreamScript_manner _ _ hc hpage fun h hh => opens_upstream hfind hh
  | error => exact errorScript_manner _ hc h501

end Manners

/-! ## Runs -/

section Runs

variable (Good : Head → Prop)

/-- The text begins with a good header block, and may go on behind it. -/
def Begun (t : Bytes) : Prop := ∃ h, Good h ∧ h.redirects = false ∧ headText h.fields <+: t

/-- The text is a good header block with what belongs behind it, or there is no text. -/
def Whole (t : Bytes) : Prop := t = [] ∨ ∃ h, Good h ∧ h.Begins t

/-- The text is on its way: a piece of a good header block, or goes on behind one. -/
def Sound (t : Bytes) : Prop :=
  t = [] ∨ ∃ h, Good h ∧ (t <+: headText h.fields ∨ h.Begins t)

/-- **The header blocks of all answers in the log are good**: every answer is sound at every point,
and whole when its request is freed. -/
def HeadsAre (log : List Obs) : Prop :=
  Everywhere (fun l o _ => ∀ i, Sound Good (answer i (l ++ [o])).text ∧
    ∀ s, o = .freed i s → Whole Good (answer i l).text) log

/-- Where a client stands that has been told `t`. -/
inductive Voiced (c : Client) (t : Bytes) : Prop
  | silent (hc : c.Silent) (ht : t ++ c.cltTp.tpBuf = [])
  | translating (hc : c.Translating) (ht : Begun Good (t ++ c.cltTp.tpBuf))
  | passing (hc : c.Passing) (hbuf : c.cltTp.tpBuf = []) (ht : Begun Good t)

/-- The invariant: the log, and where every client stands. -/
structure Heads (f : Fcgi) : Prop where
  clients : ∀ i : UInt16, ∀ c, f.find i.toUInt32 = some c → Voiced Good c (answer i f.trace).text
  log : HeadsAre Good f.trace

variable {Good} {H : Head → Prop} {c d : Client} {s : Script} {t t' : Bytes} {log : List Obs}

theorem Begun.mono (h : Begun Good t) (ht : t <+: t') : Begun Good t' := by
  obtain ⟨hd, hgood, hpage, hpre⟩ := h
  exact ⟨hd, hgood, hpage, hpre.trans ht⟩

theorem Begun.append (h : Begun Good t) (t' : Bytes) : Begun Good (t ++ t') :=
  h.mono (List.prefix_append _ _)

theorem Begun.whole (h : Begun Good t) : Whole Good t := by
  obtain ⟨hd, hgood, hpage, hpre⟩ := h
  refine .inr ⟨hd, hgood, ?_⟩
  rwa [Head.Begins, hpage, if_neg Bool.false_ne_true]

/-- What comes before something whole is sound. -/
theorem Whole.sound_of_isPrefix (h : Whole Good t') (ht : t <+: t') : Sound Good t := by
  rcases h with rfl | ⟨hd, hgood, hbegins⟩
  · exact .inl (List.prefix_nil.mp ht)
  · refine .inr ⟨hd, hgood, ?_⟩
    rw [Head.Begins] at hbegins ⊢
    split at hbegins
    · exact .inl (hbegins ▸ ht)
    · rw [if_neg ‹_›]
      exact List.prefix_or_prefix_of_prefix ht hbegins

theorem Voiced.stands (h : Voiced Good c t) : c.Stands := by
  cases h with
  | silent hc => exact .inl hc
  | translating hc => exact .inr (.inl hc)
  | passing hc => exact .inr (.inr hc)

theorem Voiced.congr (h : Voiced Good c t) (hvoice : c.SameVoice d) : Voiced Good d t := by
  have htp := hvoice.tp
  cases h with
  | silent hc ht =>
    exact .silent ⟨hvoice.headers.trans hc.headers, hvoice.translate.trans hc.translate⟩ (htp ▸ ht)
  | translating hc ht =>
    exact .translating ⟨hvoice.headers.trans hc.headers, hvoice.translate ▸ hc.enabled⟩ (htp ▸ ht)
  | passing hc hbuf ht =>
    exact .passing ⟨hvoice.headers.trans hc.headers, hvoice.translate.trans hc.translate⟩
      (htp ▸ hbuf) ht

theorem Script.words_isPrefix (s : Script) (cap : Nat) (pending : Bytes) :
    s.words cap pending <+: (putAll cap pending s.ops).1 ++ (putAll cap pending s.ops).2 := by
  rw [Script.words]
  split
  · exact List.prefix_refl _
  · exact List.prefix_append _ _

section Playing

variable (hm : Manner H c s) (hv : Voiced Good c t) (hgood : ∀ h, H h → Good h)

include hm hv hgood

/-- What a script makes of a client: `p` is what it hands over and what it leaves pending. -/
theorem Manner.outcome {cap : Nat} {p : Bytes × Bytes}
    (hp : p = putAll cap c.cltTp.tpBuf s.ops) :
    t ++ (p.1 ++ p.2) = [] ∧ (∀ c', s.next = .goes c' → c'.Silent) ∨
      Begun Good (t ++ (p.1 ++ p.2)) ∧
        (∀ c', s.next = .goes c' → c'.Translating ∨ c'.Passing ∧ p.2 = []) ∨
      Whole Good (t ++ (p.1 ++ p.2)) ∧ ∀ c', s.next ≠ .goes c' := by
  subst hp
  -- a client that is silent was told nothing
  have hsilent (hc : c.Silent) : t = [] ∧ c.cltTp.tpBuf = [] := by
    cases hv with
    | silent _ ht => exact List.append_eq_nil_iff.mp ht
    | translating hc' => exact absurd hc'.headers (by simp [hc.headers])
    | passing hc' => exact absurd hc'.headers (by simp [hc.headers])
  cases hm with
  | mute hops hnext =>
    rw [hops]
    cases hv with
    | silent hc ht =>
      refine .inl ⟨ht, fun c' hc' => ?_⟩
      obtain ⟨h₁, h₂⟩ := hnext c' hc'
      exact ⟨h₁.trans hc.headers, h₂.trans hc.translate⟩
    | translating hc ht =>
      refine .inr (.inl ⟨ht, fun c' hc' => .inl ?_⟩)
      obtain ⟨h₁, h₂⟩ := hnext c' hc'
      exact ⟨h₁.trans hc.headers, h₂ ▸ hc.enabled⟩
    | passing hc hbuf ht =>
      refine .inr (.inl ⟨ht.append _, fun c' hc' => .inr ⟨?_, hbuf⟩⟩)
      obtain ⟨h₁, h₂⟩ := hnext c' hc'
      exact ⟨h₁.trans hc.headers, h₂.trans hc.translate⟩
  | @opens h ps rest hc hh hpage hops hps hrest hnext =>
    obtain ⟨rfl, hbuf⟩ := hsilent hc
    refine .inr (.inl ⟨⟨h, hgood h hh, hpage, ?_⟩, fun c' hc' => (hnext c' hc').imp_right
      fun ⟨hpass, hempty⟩ => ⟨hpass, hempty cap _⟩⟩)
    rw [hops, hbuf, ← List.singleton_append, putAll_append, List.nil_append, List.append_assoc]
    -- what the first write leaves pending goes out before the rest
    have hfirst := Utters.write ps cap []
    rw [List.nil_append, hps] at hfirst
    rw [← hfirst]
    exact (List.prefix_append_right_inj _).mpr (hrest cap _)
  | @redirects h ps hc hh htarget hops hps hnext =>
    obtain ⟨rfl, hbuf⟩ := hsilent hc
    refine .inr (.inr ⟨.inr ⟨h, hgood h hh, ?_⟩, hnext⟩)
    rw [Head.Begins, if_pos htarget, hops, hbuf, Utters.write ps cap [], List.nil_append,
      List.nil_append, hps]
  | translates hc hops hnext =>
    cases hv with
    | silent hc' => exact absurd hc'.headers (by simp [hc.headers])
    | translating _ ht =>
      exact .inr (.inl ⟨ht.mono ((List.prefix_append_right_inj _).mpr (hops cap _)),
        fun c' hc' => .inl (hnext c' hc')⟩)
    | passing hc' => exact absurd hc.enabled (by simp [hc'.translate, Translate.zero])
  | passes hc hnext =>
    cases hv with
    | silent hc' => exact absurd hc'.headers (by simp [hc.headers])
    | translating hc' => exact absurd hc'.enabled (by simp [hc.translate, Translate.zero])
    | passing _ hbuf ht =>
      refine .inr (.inl ⟨ht.append _, fun c' hc' => .inr ?_⟩)
      obtain ⟨hpass, hempty⟩ := hnext c' hc'
      rw [hbuf]
      exact ⟨hpass, hempty cap⟩

theorem Manner.whole (cap : Nat) :
    Whole Good
      (t ++ ((putAll cap c.cltTp.tpBuf s.ops).1 ++ (putAll cap c.cltTp.tpBuf s.ops).2)) := by
  rcases hm.outcome hv hgood rfl with ⟨hnil, -⟩ | ⟨hbegun, -⟩ | ⟨hwhole, -⟩
  · exact .inl hnil
  · exact hbegun.whole
  · exact hwhole

/-- Where the client stands afterwards. -/
theorem Manner.voiced {c' : Client} (hnext : s.next = .goes c') {tp : Template} {ds : List Bytes}
    {cap : Nat} (htext : (ds.flatten, tp.tpBuf) = putAll cap c.cltTp.tpBuf s.ops) :
    Voiced Good { c' with cltTp := tp } (t ++ ds.flatten) := by
  rcases hm.outcome hv hgood htext with ⟨hnil, hc⟩ | ⟨hbegun, hc⟩ | ⟨-, hc⟩
  · obtain ⟨hdone, htr⟩ := hc c' hnext
    exact .silent ⟨hdone, htr⟩ ((List.append_assoc _ _ _).trans hnil)
  · rw [← List.append_assoc] at hbegun
    rcases hc c' hnext with ⟨hdone, htr⟩ | ⟨⟨hdone, htr⟩, hempty⟩
    · exact .translating ⟨hdone, htr⟩ hbegun
    · refine .passing ⟨hdone, htr⟩ hempty ?_
      rwa [show tp.tpBuf = [] from hempty, List.append_nil] at hbegun
  · exact absurd hnext (hc c')

end Playing

/-! The log, one kind of entry at a time. -/

theorem HeadsAre.append {new : List Obs} (h : HeadsAre Good log)
    (hnew : Everywhere (fun l o _ => ∀ i, Sound Good (answer i (log ++ l ++ [o])).text ∧
      ∀ s, o = .freed i s → Whole Good (answer i (log ++ l)).text) new) :
    HeadsAre Good (log ++ new) :=
  Everywhere.append (fun _ _ _ _ h => h) h hnew

theorem HeadsAre.sound (h : HeadsAre Good log) (i : UInt16) : Sound Good (answer i log).text := by
  rcases List.eq_nil_or_concat log with rfl | ⟨l, o, rfl⟩
  · exact .inl rfl
  · rw [List.concat_eq_append] at h ⊢
    exact (h l o [] rfl i).1

theorem HeadsAre.silent {os : List Obs} (h : HeadsAre Good log) (hos : ∀ o ∈ os, o.Silent) :
    HeadsAre Good (log ++ os) := by
  refine h.append ?_
  rintro l o l' rfl i
  refine ⟨?_, fun s ho => ?_⟩
  · rw [List.append_assoc, answer_silent i log fun o' ho' => hos o' ?_]
    · exact h.sound i
    · simp only [List.mem_append, List.mem_cons, List.not_mem_nil, or_false] at ho' ⊢
      exact ho'.imp_right .inl
  · subst ho
    exact (hos (.freed i s) (by simp)).elim

theorem answer_accepted (i j : UInt16) (s : Nat) (log : List Obs) :
    (answer j (log ++ [.accepted i s])).text = if i = j then [] else (answer j log).text := by
  rw [answer_append]
  show (Answer.step j (answer j log) (.accepted i s)).text = _
  rw [Answer.step]
  split_ifs <;> rfl

theorem HeadsAre.accepted (h : HeadsAre Good log) (i : UInt16) (s : Nat) :
    HeadsAre Good (log ++ [.accepted i s]) := by
  refine h.append (everywhere_singleton.mpr fun j => ⟨?_, fun s hs => by cases hs⟩)
  rw [List.append_nil, answer_accepted]
  split_ifs
  · exact .inl rfl
  · exact h.sound j

/-- Text under one id, another one. -/
theorem answer_stdoutOf_of_ne {i j : UInt16} (hj : j ≠ i) (log : List Obs) (ds : List Bytes) :
    answer j (log ++ stdoutOf i.toUInt32 ds) = answer j log := by
  refine answer_of_ne hj.symm log fun o ho => .inl ?_
  obtain ⟨d, -, rfl⟩ := List.mem_map.mp ho
  exact ⟨stdout, d, by rw [toUInt16_toUInt32]⟩

theorem HeadsAre.told {ds : List Bytes} (h : HeadsAre Good log)
    (hds : ∀ t, t <+: (answer i log).text ++ ds.flatten → Sound Good t) :
    HeadsAre Good (log ++ stdoutOf i.toUInt32 ds) := by
  refine h.append fun l o l' hl j => ?_
  obtain ⟨ds₁, ds₂, rfl, rfl, h₂⟩ := List.map_eq_append_iff.mp hl
  obtain ⟨d, ds₃, rfl, rfl, rfl⟩ := List.map_eq_cons_iff.mp h₂
  refine ⟨?_, fun s hs => by cases hs⟩
  have hmap : log ++ stdoutOf i.toUInt32 ds₁ ++ [Obs.queued stdout i.toUInt32.toUInt16 d]
      = log ++ stdoutOf i.toUInt32 (ds₁ ++ [d]) := by simp [stdoutOf]
  show Sound Good (answer j (log ++ stdoutOf i.toUInt32 ds₁ ++ _)).text
  rw [hmap]
  by_cases hj : j = i
  · subst hj
    rw [answer_stdoutOf]
    exact hds _ ⟨ds₃.flatten, by simp⟩
  · rw [answer_stdoutOf_of_ne hj]
    exact h.sound j

theorem answer_text_finish (i j : UInt16) (log : List Obs) (body : Bytes) (s : Nat) :
    (answer j (log ++ [.queued endRequestType i body])).text = (answer j log).text ∧
      (answer j (log ++ [.queued endRequestType i body, .freed i s])).text
      = (answer j log).text := by
  simp only [answer_append, List.foldl_cons, List.foldl_nil, Answer.step, endRequestType, stdout]
  split_ifs <;> simp_all

theorem HeadsAre.finished {body : Bytes} {s : Nat} (h : HeadsAre Good log)
    (hwhole : Whole Good (answer i log).text) :
    HeadsAre Good (log ++ [.queued endRequestType i body, .freed i s]) := by
  refine h.append (everywhere_pair.mpr ⟨fun j => ⟨?_, fun s hs => by cases hs⟩, fun j => ⟨?_, ?_⟩⟩)
  · rw [List.append_nil, (answer_text_finish i j log body s).1]
    exact h.sound j
  · rw [List.append_assoc]
    exact (answer_text_finish i j log body s).2 ▸ h.sound j
  · rintro s' hs
    cases hs
    rw [(answer_text_finish i i log body s).1]
    exact hwhole

/-- **The step lemma**: good blocks stay, if those the event may write are good. -/
theorem heads_step (env : Env) (h : Heads Good f) (hgood : ∀ h, f.Opens e h → Good h) :
    Heads Good (step env f e) := by
  have hturn := step_turn env f e
  generalize step env f e = g at hturn
  cases hturn with
  | quiet htrace hos hfind =>
    refine ⟨fun i d hd => ?_, htrace ▸ h.log.silent hos⟩
    obtain ⟨c, hc, hvoice⟩ := hfind i d hd
    rw [htrace, answer_silent i _ hos]
    exact (h.clients i c hc).congr hvoice
  | @accepts os i serial htrace hos hnew hothers =>
    refine ⟨fun j d hd => ?_, htrace ▸ (h.log.silent hos).accepted i serial⟩
    rw [htrace, answer_accepted]
    by_cases hj : j = i
    · subst hj
      rw [hnew] at hd
      cases hd
      exact .silent ⟨rfl, rfl⟩ (by rw [if_pos rfl]; rfl)
    · rw [if_neg fun h => hj h.symm, answer_silent j _ hos]
      exact h.clients j d (hothers j hj ▸ hd)
  | @calls k os i c d s hfind hvoice htrace hos hothers hcue hheard =>
    have hk : HeadsAre Good k.trace := htrace ▸ h.log.silent hos
    have hclients (j : UInt16) (c' : Client) (hc' : k.find j.toUInt32 = some c') :
        Voiced Good c' (answer j k.trace).text := by
      rw [htrace, answer_silent j _ hos]
      exact h.clients j c' (hothers j ▸ hc')
    have hd : Voiced Good d (answer i k.trace).text :=
      (hclients i c ((hothers i).trans hfind)).congr hvoice
    have hm := hcue.manner hd.stands
    have hwhole := hm.whole hd hgood d.cltTp.tpCap
    have hsound {ds : List Bytes} (hds : ds.flatten <+: s.words d.cltTp.tpCap d.cltTp.tpBuf)
        (t : Bytes) (ht : t <+: (answer i k.trace).text ++ ds.flatten) : Sound Good t :=
      hwhole.sound_of_isPrefix (ht.trans ((List.prefix_append_right_inj _).mpr
        (hds.trans (s.words_isPrefix _ _))))
    have hgone {g : Fcgi} (hnone : g.fcgClients = []) (j : UInt16) (c' : Client)
        (hc' : g.find j.toUInt32 = some c') : Voiced Good c' (answer j g.trace).text := by
      rw [Fcgi.find, hnone] at hc'
      cases hc'
    cases hheard with
    | @goes c' ds tp hnext hserial htext hcap hg hrest ht hclosed hws =>
      refine ⟨fun j c'' hc'' => ?_, ?_⟩
      · rw [ht]
        by_cases hj : j = i
        · subst hj
          rw [hg] at hc''
          cases hc''
          rw [answer_stdoutOf]
          exact hm.voiced hd hgood hnext htext
        · rw [answer_stdoutOf_of_ne hj]
          exact hclients j c'' (hrest j hj ▸ hc'')
      · rw [ht]
        refine hk.told (hsound ?_)
        rw [Script.words, hnext, ← htext]
    | @ends status proto ds hnext htext hg hrest ht hclosed =>
      have htold := hk.told (hsound (by rw [htext]))
      refine ⟨fun j c'' hc'' => ?_, ?_⟩
      · by_cases hj : j = i
        · subst hj
          rw [hg] at hc''
          cases hc''
        · rw [ht, (answer_text_finish i j _ _ _).2, answer_stdoutOf_of_ne hj]
          exact hclients j c'' (hrest j hj ▸ hc'')
      · rw [ht]
        refine htold.finished ?_
        rw [answer_stdoutOf, htext, Script.words, hnext]
        exact hwhole
    | crashed hnext htext ht hclosed hnone =>
      exact ⟨hgone hnone, ht ▸ hk.told (hsound (by rw [htext]))⟩
    | torn hfail htext ht hclosed hnone => exact ⟨hgone hnone, ht ▸ hk.told (hsound htext)⟩

/-- **The run lemma.** -/
theorem heads_run (env : Env) (writes : List Bool) (asr : List AsrAnswer) {es : List Event}
    (hsteps : Steps (step env) (fun f e => ∀ h, f.Opens e h → Good h) (Fcgi.new writes asr) es) :
    HeadsAre Good (run env (Fcgi.new writes asr) es).trace := by
  have hnew : Heads Good (Fcgi.new writes asr) := ⟨fun _ _ h => (by cases h), Everywhere.nil⟩
  exact (invariant (fun _ _ => heads_step env) hnew hsteps).log

end Runs

/-! ## What a block can be -/

theorem statusHead_cases {mem hdr : Bytes} (hh : statusHead c mem hdr = some h) :
    (∃ v, h = .reply 302 v) ∨ ∃ v, h = .content v := by
  rw [statusHead] at hh
  split at hh
  · split at hh
    · exact .inr ⟨_, (Option.some.inj hh).symm⟩
    · cases hh
  · obtain ⟨v, -, rfl⟩ := Option.map_eq_some_iff.mp hh
    exact .inl ⟨v, rfl⟩

/-- Our own pages apart, the proxy writes redirections and types. -/
theorem opens_cases (hh : h ∈ f.opens e) : (∃ v, h = .reply 302 v) ∨ ∃ v, h = .content v := by
  rcases List.mem_append.mp hh with hh | hh
  · obtain ⟨c, -, hc⟩ := List.mem_filterMap.mp hh
    obtain ⟨v, -, rfl⟩ := Option.map_eq_some_iff.mp hc
    exact .inl ⟨v, rfl⟩
  · split at hh
    · obtain ⟨c, -, hc⟩ := Option.bind_eq_some_iff.mp (Option.mem_toList.mp hh)
      obtain ⟨l, -, hc⟩ := Option.bind_eq_some_iff.mp hc
      exact statusHead_cases hc
    · cases hh

/-- Where a header block can end. -/
theorem suffix_headText (h : Head) : ([13, 10, 13, 10] : Bytes) <:+ headText h.fields := by
  have hne : h.fields ≠ [] := by cases h <;> simp [Head.fields]
  obtain ⟨fs, f, hfs⟩ := (List.eq_nil_or_concat h.fields).resolve_left hne
  have hcrlf : lit "\r\n" = [13, 10] := by decide
  rw [hfs, List.concat_eq_append, headText, List.flatMap_append, List.flatMap_singleton, Field.text,
    hcrlf]
  exact ⟨fs.flatMap Field.text ++ (f.name ++ lit ": " ++ f.value), by simp⟩

/-- The answer to a request that was freed last begins with a good block, which ends with one of the
blank lines of the answer. -/
theorem HeadsAre.exists_of_last {Good : Head → Prop} {log : List Obs} (h : HeadsAre Good log)
    {s : Nat} {t : Bytes} (hlast : log = log.dropLast ++ [.freed i s])
    (ht : (answer i log.dropLast).text = t) (hne : t ≠ []) :
    ∃ hd, Good hd ∧ ∃ u ∈ t.tails, ([13, 10, 13, 10] : Bytes) <+: u ∧
      headText hd.fields = t.take (t.length + 4 - u.length) := by
  have hwhole := (h _ _ [] hlast i).2 s rfl
  rw [ht] at hwhole
  obtain ⟨hd, hgood, hbegins⟩ := hwhole.resolve_left hne
  obtain ⟨block, hblock⟩ := suffix_headText hd
  obtain ⟨page, rfl⟩ := hbegins.isPrefix
  refine ⟨hd, hgood, [13, 10, 13, 10] ++ page, ?_, List.prefix_append _ _, ?_⟩
  · rw [List.mem_tails, ← hblock, List.append_assoc]
    exact List.suffix_append _ _
  · have hlen : (headText hd.fields ++ page).length + 4 - ([13, 10, 13, 10] ++ page).length
        = (headText hd.fields).length := by
      simp only [List.length_append, List.length_cons, List.length_nil]
      omega
    rw [hlen, List.take_left]

/-! ## The content security policy -/

/-- Whether the block reads as one that has the policy, or does not need it, and has it once. A type
is on one line, and the target of a redirection, if it is not, does not name the policy. -/
def Head.policed : Head → Bool
  | .reply _ v => decide (10 ∉ v) || !mentions "Content-Security-Policy" v
  | .content v => decide (OneLine v) && !isHtml (v.dropWhile isblank)

/-- A block is written that does not. -/
def Fcgi.exposes (f : Fcgi) (e : Event) : Prop := ∃ h ∈ f.opens e, h.policed = false

instance (f : Fcgi) (e : Event) : Decidable (f.exposes e) :=
  inferInstanceAs (Decidable (∃ h ∈ f.opens e, h.policed = false))

/-- The block has the policy if it is HTML, as it is written and as it is read, and unless it is a
redirection its fields are the proxy's own. -/
structure Head.Polices (h : Head) : Prop where
  read : Policed (headText h.fields)
  guarded : Guarded h.fields
  own : h.redirects = false → OwnFields h.fields

theorem polices_of_opens (hno : ¬ f.exposes e) (hh : f.Opens e h) : h.Polices := by
  rcases hh with ⟨status, hstatus, rfl⟩ | hh
  · exact ⟨policed_page status hstatus, guarded_reply _ _, fun _ => ownFields_page status hstatus⟩
  have hpoliced : h.policed = true := by
    by_contra hnot
    exact hno ⟨h, hh, Bool.not_eq_true _ ▸ hnot⟩
  rcases opens_cases hh with ⟨v, rfl⟩ | ⟨v, rfl⟩
  · refine ⟨policed_redirect ?_, guarded_reply _ _, fun h => by cases h⟩
    simpa [Head.policed] using hpoliced
  · obtain ⟨hline, hhtml⟩ : OneLine v ∧ isHtml (v.dropWhile isblank) = false := by
      simpa [Head.policed] using hpoliced
    exact ⟨policed_content hline.2 hhtml, guarded_content (isHtml_of_dropWhile hhtml),
      fun _ => ownFields_content hline⟩

/-- **HTML comes with the policy**, as long as no page is translated and no server sends HTML, and
nothing is injected: then a header block with an HTML type has the `Content-Security-Policy` field
once, also as it is read. -/
theorem html_has_policy (env : Env) (writes : List Bool) (asr : List AsrAnswer) (es : List Event)
    (hes : Steps (step env) (fun f e => ¬ f.exposes e) (Fcgi.new writes asr) es) :
    HeadsAre Head.Polices (run env (Fcgi.new writes asr) es).trace :=
  heads_run env writes asr (hes.mono fun _ _ hno _ => polices_of_opens hno)

/-- A response of the Gemini server to the request of `exampleSent`, and the end of file. -/
def Event.answered (bytes : String) : List Event := exampleSent ++ responseEvents 1 [sends bytes]

/-- The page that asks for input has the policy. -/
theorem input_page_has_policy :
    let f := run exampleEnv (Fcgi.new [] []) (Event.answered "10 name\r\n")
    HeadsAre Head.Polices f.trace ∧
      headText [cspField, ⟨lit "Content-Type", lit "text/html;charset=utf-8"⟩]
        <+: (answer 1 f.trace).text :=
  ⟨html_has_policy exampleEnv [] [] (Event.answered "10 name\r\n") (by decide +kernel),
    by decide +kernel⟩

/-- A translated page is HTML and has no policy. -/
theorem gemtext_page_has_no_policy :
    let f := run exampleEnv (Fcgi.new [] []) (Event.answered "20 text/gemini\r\nhi\n")
    headText [⟨lit "Content-Type", lit "text/html;charset=utf-8"⟩] <+: (answer 1 f.trace).text ∧
      isHtml (lit "text/html;charset=utf-8") = true ∧
      ¬ HeadsAre Head.Polices f.trace := by
  intro f
  refine ⟨by decide +kernel, by decide +kernel, fun hheads => ?_⟩
  obtain ⟨h, hpolices, u, hu, hblank, hblock⟩ := hheads.exists_of_last (i := 1) (s := 0)
    (by decide +kernel) rfl (by decide +kernel)
  have hnone : let t := (answer 1 f.trace.dropLast).text
      ∀ u ∈ t.tails, ([13, 10, 13, 10] : Bytes) <+: u →
        ¬ Policed (t.take (t.length + 4 - u.length)) := by
    decide +kernel
  exact hnone u hu hblank (hblock ▸ hpolices.read)

end Galileo
