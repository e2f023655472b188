import Galileo.Proof.Requests

/-!
# A visitor's words on their way to the capsule

The input page is a form with one field. What is written there comes back as
`application/x-www-form-urlencoded`, is cut out of the body, pasted behind a `?` into a redirection,
comes back once more as the `QUERY_STRING` of another request, and goes to the Gemini server as the
query of a URI. Nobody on this way decodes anything, so the words arrive as a form spells them, and
`input_delivered_iff` says when that is how a URI spells them too.
-/

set_option autoImplicit false

namespace Galileo

open Lib Lib.FastCgi Lib.Run Lib.Uri

/-! ## The body of the form -/

theorem strchr_eq_none {b : UInt8} {s : Bytes} (h : b ∉ s) : strchr b s = none := by
  induction s with
  | nil => rfl
  | cons a s ih =>
    have ha : (a == b) = false := beq_eq_false_iff_ne.mpr fun heq => h (heq ▸ List.mem_cons_self)
    rw [strchr, ha, if_neg Bool.false_ne_true]
    exact ih fun hb => h (List.mem_cons_of_mem _ hb)

/-- An encoded field has none of the bytes that mean something to anybody on the way. -/
theorem not_mem_formEncode (x : Bytes) {b : UInt8} (h : formChar b = false) : b ∉ formEncode x := by
  intro hb
  rw [formChar_formEncode hb] at h
  cases h

/-- A `POST` request whose parameters have come, and nothing else. -/
structure Client.AwaitsForm (c : Client) (script path : Bytes) : Prop where
  method : c.cltMethod = .post
  script : c.cltScriptName = some script
  path : c.cltPathInfo = some path
  body : c.cltBody = none
  bodylen : c.cltBodylen = 0
  bodydone : c.cltBodydone = false
  pending : c.cltTp.tpBuf = []

/-- The client when the body has come. -/
def Client.filled (c : Client) (body : Bytes) : Client :=
  { c with cltBody := some body, cltBodylen := body.length, cltBodydone := false }

/-- The client when the form is complete. -/
def Client.submitted (c : Client) (body : Bytes) : Client :=
  { c with cltBody := some body, cltBodylen := body.length, cltBodydone := true }

section Body

variable {c : Client} {script path x : Bytes}

theorem formChunk_field (hc : c.AwaitsForm script path) :
    formChunk (cstr (lit "q=" ++ formEncode x)) c = c.filled (formEncode x) := by
  have hlit : lit "q=" = [113, 61] := by decide
  have hnul : 0 ∉ lit "q=" ++ formEncode x := by
    rw [hlit, List.mem_append]
    rintro (h | h)
    · exact absurd h (by decide)
    · exact not_mem_formEncode x (by decide) h
  have hfound : strstr (lit "q=") (lit "q=" ++ formEncode x) = some (lit "q=" ++ formEncode x) := by
    rw [hlit]
    simp [strstr, List.isPrefixOf]
  have hcut : cutForm (formEncode x) = (formEncode x, false) := by
    rw [cutForm, strchr_eq_none (not_mem_formEncode x (by decide)),
      strchr_eq_none (not_mem_formEncode x (by decide))]
  have hdrop : (lit "q=" ++ formEncode x).drop 2 = formEncode x := by
    rw [hlit]
    rfl
  rw [cstr_eq_self hnul, formChunk, hc.bodydone, hc.body, hc.bodylen]
  simp only [Bool.false_eq_true, if_false, hfound, hdrop, hcut]
  rfl

/-- What a complete form is answered with. -/
theorem startScript_submitted {env : Env} {asr : List AsrAnswer} {body : Bytes}
    (hc : c.AwaitsForm script path) (hserver : (proxyMatch env c.cltServerName).isSome = true) :
    startScript env asr (c.submitted body)
      = ⟨[.write (proxyStartReply 302 (some (script ++ path.tail ++ lit "?" ++ body)))],
        .ends 1 requestComplete⟩ := by
  obtain ⟨pc, hpc⟩ := Option.isSome_iff_exists.mp hserver
  have hpath : (c.submitted body).cltPathInfo = some path := hc.path
  have hscript : c.cltScriptName = some script := hc.script
  rw [startScript, hpath]
  simp only [Client.submitted, hpc, hscript, Option.isNone_some, Bool.and_false, Bool.false_eq_true,
    if_false, Option.getD_some]

end Body

/-! ## Two records -/

section Records

variable {env : Env} {f : Fcgi} {r : Record} {rest stale : Bytes} {c : Client}

/-- Ready for the header of a record. -/
structure Fcgi.AtHeader (f : Fcgi) : Prop where
  opened : f.closed = false
  want : f.fcgWant = .header
  toread : f.fcgToread = 8

/-- The turns that take an `FCGI_STDIN` record. -/
theorem run_stdin (hf : f.AtHeader) (hin : f.input = r.encode ++ rest) (htype : r.type = stdin)
    (stale stale' : Bytes) :
    run env f [.read stale, .read stale']
      = (readStdin env ((f.announced r rest).observe (f.announced r rest).record)).fcgi := by
  have hannounced : (f.announced r rest).fcgType = stdin := htype
  show step env (step env f (.read stale)) (.read stale') = _
  rw [step_header hf.opened hf.want hf.toread hin, step_announced hf.opened, readBody_eq,
    hannounced, if_neg (by decide), if_neg (by decide), if_pos rfl]

/-- A record with a piece of the form is taken. -/
theorem chunk_taken (hf : f.AtHeader) (hin : f.input = r.encode ++ rest) (htype : r.type = stdin)
    (hcontent : r.content ≠ []) (hlen : r.content.length ≤ 2047)
    (hfind : f.find r.id.toUInt32 = some c) (hmethod : c.cltMethod = .post)
    (stale stale' : Bytes) :
    ∃ g, run env f [.read stale, .read stale'] = g ∧ g.AtHeader ∧ g.input = rest ∧
      g.find r.id.toUInt32 = some (formChunk (cstr r.content) c) ∧ g.writes = f.writes ∧
      answer r.id g.trace = answer r.id f.trace := by
  refine ⟨_, run_stdin hf hin htype stale stale', ?_⟩
  generalize hg : (f.announced r rest).observe (f.announced r rest).record = g
  have hgfind : g.find g.fcgRecId.toUInt32 = some c := hg ▸ hfind
  have hid : g.fcgRecId = r.id := hg ▸ rfl
  have htoread : g.fcgToread = r.content.length := hg ▸ rfl
  have hinput : g.input = r.content ++ (r.padding ++ rest) := hg ▸ rfl
  have hpadding : g.fcgPadding = r.padding.length := hg ▸ rfl
  have hpos := List.length_pos_iff.mpr hcontent
  have hne : ¬ g.fcgToread = 0 := by
    rw [htoread]
    omega
  have htaken : min 2047 (sizeT g.fcgToread) = r.content.length := by
    rw [htoread, sizeT_natCast (by omega)]
    omega
  have hremove : evbufferRemove r.content.length g.input = (r.content, r.padding ++ rest) := by
    rw [hinput, evbufferRemove_length]
  rw [readStdin, hgfind]
  dsimp only
  rw [if_neg (by simp [hmethod]), withClient_run hgfind, fcgiParseForm_chunk env c hne, htaken,
    hremove]
  refine ⟨⟨?_, rfl, rfl⟩, ?_, ?_, ?_, ?_⟩
  · show g.closed = false
    rw [← hg]
    exact hf.opened
  · show (r.padding ++ rest).drop g.fcgPadding = rest
    rw [hpadding, List.drop_left]
  · have hcid : (formChunk (cstr r.content) c).cltId = r.id.toUInt32 :=
      (formChunk_same _ c).id.trans (f.cltId_of_find hfind)
    rw [hid] at hgfind
    show (Fcgi.store _ _).find _ = _
    rw [Fcgi.find_store, if_pos hcid]
    show (g.find r.id.toUInt32).map _ = _
    rw [hgfind]
    rfl
  · show g.writes = f.writes
    rw [← hg]
    rfl
  · show answer r.id g.trace = _
    rw [← hg]
    exact answer_append _ _ _

/-- The record with the form is taken: the client has its body. -/
theorem form_taken {script path x : Bytes} (hf : f.AtHeader) (hin : f.input = r.encode ++ rest)
    (htype : r.type = stdin) (hcontent : r.content = lit "q=" ++ formEncode x)
    (hlen : (formEncode x).length ≤ 1024) (hfind : f.find r.id.toUInt32 = some c)
    (hc : c.AwaitsForm script path) :
    ∃ g, run env f [.read stale, .read stale] = g ∧ g.AtHeader ∧ g.input = rest ∧
      g.find r.id.toUInt32 = some (c.filled (formEncode x)) ∧ g.writes = f.writes ∧
      answer r.id g.trace = answer r.id f.trace := by
  have hclen : r.content.length = 2 + (formEncode x).length := by
    have hlit : (lit "q=").length = 2 := by decide
    rw [hcontent, List.length_append, hlit]
  have hne : r.content ≠ [] := List.length_pos_iff.mp (by omega)
  have htaken := @chunk_taken env f r rest c hf hin htype hne (by omega) hfind hc.method stale stale
  rwa [hcontent, formChunk_field hc] at htaken

/-- The empty record is taken: the request is started, with whatever body has come. -/
theorem form_started (hf : f.AtHeader) (hin : f.input = r.encode ++ rest) (htype : r.type = stdin)
    (hcontent : r.content = []) (hfind : f.find r.id.toUInt32 = some c)
    (hmethod : c.cltMethod = .post) (stale stale' : Bytes) {p : Option Unit × Ctx}
    (hp : p = proxyStartRequest env ⟨(f.announced r rest).observe (f.announced r rest).record,
      { c with cltBodydone := true }⟩) :
    run env f [.read stale, .read stale'] = (afterCall (p.1, p.2.fcgi.store p.2.clt)).fcgi := by
  have hzero : ((f.announced r rest).observe (f.announced r rest).record).fcgToread = 0 := by
    show ((r.content.length : Nat) : Int) = 0
    rw [hcontent]
    rfl
  have hobs : ((f.announced r rest).observe (f.announced r rest).record).find
      ((f.announced r rest).observe (f.announced r rest).record).fcgRecId.toUInt32 = some c := hfind
  rw [run_stdin hf hin htype stale stale', readStdin, hobs]
  dsimp only
  rw [if_neg (by simp [hmethod]), withClient_run hobs, fcgiParseForm_empty env _ hzero, hp]

/-- **What the empty record is answered with** is the script of the start. -/
theorem form_heard (hf : f.AtHeader) (hin : f.input = r.encode ++ rest) (htype : r.type = stdin)
    (hcontent : r.content = []) (hwrites : false ∉ f.writes)
    (hfind : f.find r.id.toUInt32 = some c) (hmethod : c.cltMethod = .post) (stale stale' : Bytes) :
    answer r.id (run env f [.read stale, .read stale']).trace
      = ⟨(answer r.id f.trace).text
          ++ (startScript env f.asr { c with cltBodydone := true }).words c.cltTp.tpCap
            c.cltTp.tpBuf,
        (answer r.id f.trace).ends
          ++ (startScript env f.asr { c with cltBodydone := true }).ends⟩ := by
  have hfind' : (f.announced r rest).find (f.announced r rest).fcgRecId.toUInt32 = some c := hfind
  obtain ⟨p, hp⟩ : ∃ p : Option Unit × Ctx,
      p = proxyStartRequest env ⟨(f.announced r rest).observe (f.announced r rest).record,
        { c with cltBodydone := true }⟩ := ⟨_, rfl⟩
  have hheard := start_heard (d := { c with cltBodydone := true }) hfind' rfl hp rfl
  have hsilent : answer (f.announced r rest).fcgRecId
      (((f.announced r rest).observe (f.announced r rest).record).observe
        (.started c.serial)).trace = answer r.id f.trace := by
    show answer r.id (f.trace ++ [_] ++ [_]) = _
    rw [answer_append, answer_append]
    rfl
  rw [form_started hf hin htype hcontent hfind hmethod stale stale' hp]
  refine (hheard.answer_eq hwrites).trans ?_
  rw [hsilent]
  rfl

/-- The visitor is then sent to the page with the form behind a question mark. -/
theorem form_answered {script path body : Bytes} {d : Client} (hf : f.AtHeader)
    (hin : f.input = r.encode ++ rest) (htype : r.type = stdin) (hcontent : r.content = [])
    (hwrites : false ∉ f.writes) (hfind : f.find r.id.toUInt32 = some d)
    (hd : { d with cltBodydone := true } = c.submitted body) (hc : c.AwaitsForm script path)
    (hserver : (proxyMatch env c.cltServerName).isSome = true) (stale stale' : Bytes) :
    answer r.id (run env f [.read stale, .read stale']).trace
      = ⟨(answer r.id f.trace).text
          ++ headText (Head.reply 302 (script ++ path.tail ++ lit "?" ++ body)).fields,
        (answer r.id f.trace).ends ++ [endReqBody 1 requestComplete]⟩ := by
  have hmethod : d.cltMethod = .post := by
    have h := congrArg Client.cltMethod hd
    exact h.trans hc.method
  have hpending : d.cltTp.tpBuf = [] := by
    have h := congrArg Client.cltTp hd
    exact (congrArg Template.tpBuf h).trans hc.pending
  rw [form_heard hf hin htype hcontent hwrites hfind hmethod stale stale', hd,
    startScript_submitted hc hserver, Script.words_ends (.write _), hpending, List.nil_append,
    pageText_proxyStartReply]
  rfl

end Records

/-! ## The query that comes back -/

/-- What `proxy_connect` asks for, up to the query. -/
def requestFront (pc : ProxyConfig) (pathInfo : Bytes) : Bytes :=
  lit "gemini://" ++ pc.proxyName ++ lit "/" ++ storedPath pathInfo

/-- The form of `x`, behind a redirection to `page`, is no part of the query that reaches the Gemini
server: it is behind a `#`, or what the page's path brings along makes the query too long. -/
def FormLost (page front x : Bytes) : Prop :=
  35 ∈ front ∨ 35 ∈ page ∨
    1024 < ((urlQuery (page ++ 63 :: formEncode x)).getD []).length

/-- The query that the page brings along itself, in front of a `#`. -/
def brought (page : Bytes) : Bytes :=
  let q := (urlQuery page).getD []
  if 35 ∈ page ∧ q ≠ [] ∧ q.length ≤ 1024 then 63 :: q else []

section Query

variable {page x : Bytes}

theorem not_mem_urlQuery {url q : Bytes} (h : urlQuery url = some q) : 35 ∉ q := by
  rw [urlQuery] at h
  split at h
  · cases h
  · rename_i b r hdrop
    obtain rfl := Option.some.inj h
    intro hmem
    have hin : 35 ∈ (url.takeWhile (· != 35)).dropWhile (· != 63) := by
      rw [hdrop]
      exact List.mem_cons_of_mem _ hmem
    exact absurd (List.mem_takeWhile_imp ((List.dropWhile_suffix _).subset hin)) (by decide)

theorem subset_of_urlQuery {url q : Bytes} (h : urlQuery url = some q) : q ⊆ url := by
  rw [urlQuery] at h
  split at h
  · cases h
  · rename_i b r hdrop
    obtain rfl := Option.some.inj h
    intro a ha
    have hmem : a ∈ (url.takeWhile (· != 35)).dropWhile (· != 63) := by
      rw [hdrop]
      exact List.mem_cons_of_mem _ ha
    exact (List.takeWhile_prefix _).subset ((List.dropWhile_suffix _).subset hmem)

variable {front : Bytes}

/-- The query of a redirection, if it is stored, behind the path that is asked for. -/
def withQuery (front q : Bytes) : Bytes :=
  front ++ if q.length < 1025 ∧ q ≠ [] then 63 :: q else []

/-- A form that is lost leaves the request with what the page brings along. -/
theorem urlQuery_of_lost (h : FormLost page front x) :
    urlQuery (withQuery front ((urlQuery (page ++ 63 :: formEncode x)).getD []))
      = urlQuery (front ++ brought page) := by
  by_cases hfront : 35 ∈ front
  · rw [withQuery, urlQuery_append_of_fragment hfront, urlQuery_append_of_fragment hfront]
  by_cases hpage : 35 ∈ page
  · rw [urlQuery_append_of_fragment hpage, withQuery, brought]
    congr 2
    refine if_congr ?_ rfl rfl
    rw [Nat.lt_succ_iff, and_comm]
    exact (and_iff_right hpage).symm
  · have hlong := (h.resolve_left hfront).resolve_left hpage
    rw [withQuery, brought, if_neg fun h => absurd h.1 (by omega), if_neg fun h => hpage h.1]

/-- A form that is not lost is the query or the end of it, and decodes to no less than `x`. -/
theorem arrives_of_kept (hx : x ≠ []) (h : ¬ FormLost page front x) :
    (∃ q, urlQuery (withQuery front ((urlQuery (page ++ 63 :: formEncode x)).getD [])) = some q ∧
      percentDecode q = x) ↔ 32 ∉ x ∧ Bare page ∧ Bare front := by
  simp only [FormLost, not_or, Nat.not_lt] at h
  obtain ⟨hfront, hpage, hlen⟩ := h
  have hfragment : 35 ∉ formEncode x := not_mem_formEncode x (by decide)
  have hform : (percentDecode (formEncode x)).length = x.length := by
    rw [percentDecode_formEncode, List.length_map]
  have hpos : 0 < x.length := List.length_pos_iff.mpr hx
  -- what has a `?` in front decodes to more
  obtain ⟨q₀, hq₀, hsame, hmore⟩ : ∃ q₀, urlQuery (page ++ 63 :: formEncode x) = some q₀ ∧
      (63 ∉ page → q₀ = formEncode x) ∧ (63 ∈ page → x.length < (percentDecode q₀).length) := by
    refine ⟨_, urlQuery_append hpage hfragment, fun hno => if_neg hno, fun hmark => ?_⟩
    rw [if_pos hmark, ← hform]
    exact length_percentDecode_append _ _
  have hle : x.length ≤ (percentDecode q₀).length := by
    by_cases hmark : 63 ∈ page
    · exact Nat.le_of_lt (hmore hmark)
    · rw [hsame hmark, hform]
  have hne : q₀ ≠ [] := by
    rintro rfl
    exact absurd hle (by rw [percentDecode]; exact Nat.not_le.mpr hpos)
  rw [hq₀, Option.getD_some] at hlen ⊢
  rw [withQuery, if_pos ⟨by omega, hne⟩]
  have hq₀frag : 35 ∉ q₀ := not_mem_urlQuery hq₀
  rw [urlQuery_append hfront hq₀frag]
  by_cases hmark : 63 ∈ front
  · rw [if_pos hmark]
    refine ⟨?_, fun h => absurd hmark h.2.2.1⟩
    rintro ⟨q, hq, hdecode⟩
    have hlonger := length_percentDecode_append (front.dropWhile (· != 63)).tail q₀
    rw [Option.some.inj hq, hdecode] at hlonger
    omega
  rw [if_neg hmark]
  by_cases hmark' : 63 ∈ page
  · refine ⟨?_, fun h => absurd hmark' h.2.1.1⟩
    rintro ⟨q, hq, hdecode⟩
    have hlonger := hmore hmark'
    rw [Option.some.inj hq, hdecode] at hlonger
    omega
  · rw [hsame hmark', ← percentDecode_formEncode_eq_iff x]
    constructor
    · rintro ⟨q, hq, hdecode⟩
      rw [← Option.some.inj hq] at hdecode
      exact ⟨hdecode, ⟨hmark', hpage⟩, hmark, hfront⟩
    · exact fun h => ⟨_, rfl, h.1⟩

/-- **What the Gemini server gets to see of `x`.** -/
theorem arrives_iff (hx : x ≠ []) (hlen : (formEncode x).length ≤ 1024) :
    (∃ q, urlQuery (withQuery front ((urlQuery (page ++ 63 :: formEncode x)).getD [])) = some q ∧
      percentDecode q = x) ↔
      (32 ∉ x ∧ Bare page ∧ Bare front) ∨
        FormLost page front x ∧
          ∃ q, urlQuery (front ++ brought page) = some q ∧ percentDecode q = x := by
  by_cases hlost : FormLost page front x
  · rw [urlQuery_of_lost hlost]
    refine ⟨fun h => .inr ⟨hlost, h⟩, fun h => h.elim (fun hbare => ?_) And.right⟩
    obtain ⟨-, hpage, hfront⟩ := hbare
    rcases hlost with hlost | hlost | hlost
    · exact absurd hlost hfront.2
    · exact absurd hlost hpage.2
    · have hfragment : 35 ∉ formEncode x := not_mem_formEncode x (by decide)
      rw [urlQuery_append hpage.2 hfragment, if_neg hpage.1, Option.getD_some] at hlost
      omega
  · rw [arrives_of_kept hx hlost]
    exact ⟨.inl, fun h => h.resolve_right fun h => hlost h.1⟩

theorem bare_storedScript {s : Bytes} (h : Bare (storedScript s)) : Bare s := by
  rw [storedScript] at h
  split at h
  · exact h
  · exact (bare_append.mp h).1

theorem bare_storedPath {s : Bytes} : Bare (storedPath s) ↔ Bare s := by
  have hslash : Bare (lit "/") := by decide
  rw [storedPath]
  split
  · rfl
  · rw [bare_append]
    exact and_iff_right hslash

/-- The request is bare up to its query if the page's path is, decoded once more. -/
theorem bare_requestFront {pc : ProxyConfig} {base v path : Bytes}
    (hbare : Bare (storedScript base ++ path))
    (hmapped : percentDecode (storedScript base ++ path) = base ++ v) :
    Bare (requestFront pc v) ↔
      Bare (percentDecode (storedScript base ++ path)) ∧ Bare pc.proxyName := by
  have hscheme : Bare (lit "gemini://") := by decide
  have hslash : Bare (lit "/") := by decide
  have hbase : Bare base := bare_storedScript (bare_append.mp hbare).1
  rw [hmapped, requestFront]
  simp only [bare_append, bare_storedPath, hscheme, hslash, hbase, true_and, and_true]
  exact and_comm

end Query

/-- Where the visitor is sent. -/
def formTarget (base path x : Bytes) : Bytes :=
  storedScript base ++ path.tail ++ lit "?" ++ formEncode x

/-- What the web server says of a request for `url` when `base` is the script and `v` is behind
it. -/
def urlParams (url base v : Bytes) : List (Bytes × Bytes) :=
  [(lit "SCRIPT_NAME", base), (lit "PATH_INFO", v), (lit "QUERY_STRING", (urlQuery url).getD [])]

section Second

variable {env : Env} {base path v x : Bytes} {d₀ d : Client}

theorem formTarget_eq : formTarget base path x
    = storedScript base ++ path.tail ++ 63 :: formEncode x := by
  have hmark : lit "?" = [63] := by decide
  rw [formTarget, hmark, List.append_assoc]
  rfl

theorem formTarget_noNul (hbase : 0 ∉ base) (hpath : 0 ∉ path) :
    0 ∉ (urlQuery (formTarget base path x)).getD [] := by
  intro h0
  cases hq : urlQuery (formTarget base path x) with
  | none =>
    rw [hq] at h0
    cases h0
  | some q =>
    rw [hq] at h0
    have hmem := subset_of_urlQuery hq h0
    rw [formTarget_eq, storedScript] at hmem
    simp only [List.mem_append, List.mem_cons] at hmem
    rcases hmem with (hmem | hmem) | hmem | hmem
    · split at hmem
      · exact hbase hmem
      · rcases List.mem_append.mp hmem with hmem | hmem
        · exact hbase hmem
        · exact absurd hmem (by decide)
    · exact hpath (List.mem_of_mem_tail hmem)
    · cases hmem
    · exact not_mem_formEncode x (by decide) hmem

/-- The second request, up to its line end. -/
theorem request_followed (hbase : 0 ∉ base) (hpath : 0 ∉ path) (hv : 0 ∉ v)
    (hbaselen : base.length < env.pathMax) (hvlen : v.length < env.pathMax)
    (hquery : d₀.cltQuery = none)
    (hfits : ((urlParams (formTarget base path x) base v).flatMap encodePair).length ≤ 65535)
    (htold : d₀.Told env (urlParams (formTarget base path x) base v) d) (pc : ProxyConfig) :
    geminiRequest pc d = withQuery (requestFront pc v)
      ((urlQuery (formTarget base path x)).getD []) ++ [13, 10] := by
  have hlegible : ∀ p ∈ urlParams (formTarget base path x) base v, Legible p := by
    intro p hp
    simp only [urlParams, List.mem_cons, List.not_mem_nil, or_false] at hp
    rcases hp with rfl | rfl | rfl <;> exact legible_of_known (by simp)
  have hnul : 0 ∉ (urlQuery (formTarget base path x)).getD [] := formTarget_noNul hbase hpath
  have hd := htold.eq hlegible hfits
  rw [urlParams, List.foldl_cons, List.foldl_cons, List.foldl_cons, List.foldl_nil,
    given_script hbaselen hbase, given_path hvlen hv, given_query hnul] at hd
  have hmark : lit "?" = [63] := by decide
  generalize (urlQuery (formTarget base path x)).getD [] = q at hd ⊢
  by_cases hstored : q.length < 1025 ∧ q ≠ []
  · rw [if_pos hstored] at hd
    have hpart : d.queryPart = 63 :: q := by
      rw [hd, Client.queryPart, hmark]
      rfl
    rw [@geminiRequest_eq pc d (storedPath v) (by rw [hd]), hpart, withQuery, if_pos hstored]
    rfl
  · rw [if_neg hstored] at hd
    have hpart : d.queryPart = [] := by
      rw [hd, Client.queryPart]
      dsimp only
      rw [hquery]
    rw [@geminiRequest_eq pc d (storedPath v) (by rw [hd]), hpart, withQuery, if_neg hstored]
    rfl

end Second

theorem no_content_le : ([] : Bytes).length ≤ 65535 := Nat.zero_le _

theorem no_padding_le : ([] : Bytes).length ≤ 255 := Nat.zero_le _

def exampleFormRecord : Record := ⟨stdin, 1, lit "q=hi", [], by decide, no_padding_le⟩

def exampleFormEnd : Record := ⟨stdin, 1, [], [], no_content_le, no_padding_le⟩

/-- The parameters of a `POST` request for `/` were taken, and the form is in the input. -/
def exampleSubmitted : Fcgi :=
  run exampleEnv (Fcgi.new [] []) (Event.begin 1 1 1
    ++ Event.record params 1 (paramPair "SERVER_NAME" "h" ++ paramPair "PATH_INFO" "/"
      ++ paramPair "SCRIPT_NAME" "/" ++ paramPair "REQUEST_METHOD" "POST")
    ++ Event.record params 1 []
    ++ [.arrive (exampleFormRecord.encode ++ (exampleFormEnd.encode ++ []))])

/-- A form, in one record. -/
def Event.form (body : String) : List Event :=
  Event.begin 1 1 1
    ++ Event.record params 1 (paramPair "SERVER_NAME" "h" ++ paramPair "PATH_INFO" "/"
      ++ paramPair "SCRIPT_NAME" "/" ++ paramPair "REQUEST_METHOD" "POST")
    ++ Event.record params 1 [] ++ Event.record stdin 1 (lit body) ++ Event.record stdin 1 []

end Galileo
