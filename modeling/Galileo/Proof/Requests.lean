import Galileo.Lib.Uri
import Galileo.Proof.Framing
import Galileo.Proof.Heads
import Galileo.Proof.Pairs

/-!
# From one request to the next

A visitor's text goes a long way: from a form to a redirection, from there into the parameters of
another request, and from there into the line that is sent to the Gemini server. The pieces are in
three files, and each has its own idea of what a slash or a blank is. This module follows a value
over the whole way.
-/

set_option autoImplicit false

namespace Galileo

open Lib Lib.FastCgi Lib.Run Lib.Uri

/-! ## The line that is sent -/

/-- `proxy_connect` has what it needs to queue a request. -/
structure Connects (net : NetEnv) (c : Client) (pc : ProxyConfig) : Prop where
  config : c.cltPc = some pc
  done : (connectAgain net c.cltFd net.sockets c.cltP).1 = .done
  bev : net.bevNew = true
  tls : pc.noTls = true ∨ net.tls = true
  queued : net.queued = true

theorem proxyConnect_queues {net : NetEnv} {c : Client} {pc : ProxyConfig} (h : Connects net c pc)
    (f : Fcgi) : ∃ d, proxyConnect net ⟨f, c⟩ = (some (), ⟨f, d⟩) ∧
      d.cltBev = some ⟨[], geminiRequest pc c⟩ := by
  have htls : (!pc.noTls && !net.tls) = false := by
    rcases h.tls with h | h <;> simp [h]
  have hdone := h.done
  generalize hr : connectAgain net c.cltFd net.sockets c.cltP = r at hdone
  obtain ⟨_, fd, ps⟩ := r
  subst hdone
  simp only [proxyConnect, Prog.get_bind, hr, h.config, h.bev, htls, h.queued]
  exact ⟨_, rfl, rfl⟩

/-- No blank and no control character. -/
def Plain (s : Bytes) : Prop := ∀ b ∈ s, b ≠ 32 ∧ iscntrl b = false

instance (s : Bytes) : Decidable (Plain s) := inferInstanceAs (Decidable (∀ b ∈ s, _ ∧ _))

theorem plain_append {s t : Bytes} : Plain (s ++ t) ↔ Plain s ∧ Plain t := by
  rw [Plain, List.forall_mem_append]
  rfl

/-- One line: the first CR LF is at the very end, and what is in front of it is plain. -/
def RequestLine (s : Bytes) : Prop := ∃ l, readlnCrlfStrict s = some (l, []) ∧ Plain l

theorem readlnCrlfStrict_plain {l : Bytes} (h : Plain l) :
    readlnCrlfStrict (l ++ [13, 10]) = some (l, []) := by
  induction l with
  | nil => rfl
  | cons b l ih =>
    have hb : (b == 13) = false := by
      rw [beq_eq_false_iff_ne]
      rintro rfl
      exact absurd (h 13 (by simp)).2 (by decide)
    rw [List.cons_append, readlnCrlfStrict, hb, Bool.false_and, if_neg Bool.false_ne_true,
      ih fun a ha => h a (by simp [ha])]
    rfl

theorem requestLine_iff (l : Bytes) : RequestLine (l ++ [13, 10]) ↔ Plain l := by
  constructor
  · rintro ⟨l', hl', hplain⟩
    have happ := readlnCrlfStrict_eq_append hl'
    rwa [List.append_cancel_right happ]
  · exact fun h => ⟨l, readlnCrlfStrict_plain h, h⟩

/-- The query in the line, with its mark. -/
def Client.queryPart (c : Client) : Bytes :=
  match c.cltQuery with
  | some q => lit "?" ++ q
  | none => []

theorem geminiRequest_eq (pc : ProxyConfig) {c : Client} {path : Bytes}
    (hpath : c.cltPathInfo = some path) :
    geminiRequest pc c
      = lit "gemini://" ++ pc.proxyName ++ lit "/" ++ path ++ c.queryPart ++ [13, 10] := by
  have hcrlf : lit "\r\n" = [13, 10] := by decide
  rw [geminiRequest, hpath, hcrlf]
  rfl

/-- **The request is one line** exactly when the path and the query that were stored, and the name
of the capsule, have no blank and no control character: nothing is encoded again on the way. -/
theorem request_line_iff (net : NetEnv) (f : Fcgi) (c : Client) (pc : ProxyConfig) (path : Bytes)
    (hpath : c.cltPathInfo = some path) (hconnects : Connects net c pc) :
    ∃ d bev, proxyConnect net ⟨f, c⟩ = (some (), ⟨f, d⟩) ∧ d.cltBev = some bev ∧
      (RequestLine bev.output ↔
        Plain pc.proxyName ∧ Plain path ∧ ∀ q, c.cltQuery = some q → Plain q) := by
  obtain ⟨d, hrun, hbev⟩ := proxyConnect_queues hconnects f
  refine ⟨d, _, hrun, hbev, ?_⟩
  have hscheme : Plain (lit "gemini://") := by decide +kernel
  have hslash : Plain (lit "/") := by decide +kernel
  have hquery : Plain c.queryPart ↔ ∀ q, c.cltQuery = some q → Plain q := by
    rw [Client.queryPart]
    cases c.cltQuery with
    | none => simp [Plain]
    | some q =>
      have hmark : Plain (lit "?") := by decide +kernel
      simp [plain_append, hmark]
  show RequestLine (geminiRequest pc c) ↔ _
  rw [geminiRequest_eq pc hpath, requestLine_iff]
  simp only [plain_append, hquery, hscheme, hslash, true_and, and_true, and_assoc]

/-- What the system answers when a connection is made at once. -/
def exampleNet : NetEnv := ⟨some 0, [some 5], true, true, true, true⟩

/-- A request for `/` is one line. -/
theorem plain_request_sent :
    let c := { exampleAwaiting with cltFd := -1, cltP := [⟨[]⟩], cltBev := none }
    ∃ d bev, proxyConnect exampleNet ⟨Fcgi.new [] [], c⟩ = (some (), ⟨Fcgi.new [] [], d⟩) ∧
      d.cltBev = some bev ∧ RequestLine bev.output := by
  intro c
  obtain ⟨d, bev, hrun, hbev, hiff⟩ := request_line_iff exampleNet (Fcgi.new [] []) c
    ⟨lit "h", lit "/s.css", lit "::1", lit "h", lit "1965", true, false, false, false⟩ (lit "/") rfl
    ⟨rfl, by decide, rfl, .inl rfl, rfl⟩
  exact ⟨d, bev, hrun, hbev,
    hiff.mpr ⟨by decide +kernel, by decide +kernel, fun q hq => by cases hq⟩⟩

/-- The events up to the queueing of a request with these parameters. -/
def Event.asks (params' : Bytes) : List Event :=
  Event.begin 1 1 1
    ++ Event.record params 1 (paramPair "SERVER_NAME" "h" ++ paramPair "REQUEST_METHOD" "GET"
      ++ params')
    ++ Event.record params 1 [] ++ [.resolved 1 (some [⟨[]⟩]) exampleNet]

/-- What was queued to the Gemini servers. -/
def Fcgi.requests (f : Fcgi) : List Bytes := f.fcgClients.filterMap fun c => c.cltBev.map (·.output)

/-- A path with a line end in it is two lines. -/
theorem path_splits_request :
    let f := run exampleEnv (Fcgi.new [] [])
      (Event.asks (paramPair "SCRIPT_NAME" "/" ++ paramPair "PATH_INFO" "/a\r\nb"))
    f.requests = [lit "gemini://h//a\r\nb\r\n"] ∧
      ¬ RequestLine (lit "gemini://h//a\r\nb\r\n") := by
  refine ⟨by decide +kernel, ?_⟩
  rintro ⟨l, hl, -⟩
  have hcut : readlnCrlfStrict (lit "gemini://h//a\r\nb\r\n")
      = some (lit "gemini://h//a", lit "b\r\n") := by decide
  rw [hcut] at hl
  exact absurd (Prod.mk.inj (Option.some.inj hl)).2 (by decide)

/-! ## Links that lead back -/

/-- `SCRIPT_NAME` as it is stored. -/
def storedScript (s : Bytes) : Bytes := if s.getLast? == some 47 then s else s ++ lit "/"

/-- `PATH_INFO` as it is stored. -/
def storedPath (s : Bytes) : Bytes := if s.head? == some 47 then s else lit "/" ++ s

section Stored

variable {env : Env} {s : Bytes}

theorem given_script (hfits : s.length < env.pathMax) (hnul : 0 ∉ s) (c : Client) :
    c.given env (lit "SCRIPT_NAME", s) = { c with cltScriptName := some (storedScript s) } := by
  have hserver : (lit "SCRIPT_NAME" == lit "SERVER_NAME") = false := by decide
  simp only [Client.given, paramStore, hserver, Bool.false_and, Bool.false_eq_true, if_false,
    beq_self_eq_true, hfits, decide_true, Bool.and_self, if_true, cstr_eq_self hnul, storedScript]

theorem given_path (hfits : s.length < env.pathMax) (hnul : 0 ∉ s) (c : Client) :
    c.given env (lit "PATH_INFO", s) = { c with cltPathInfo := some (storedPath s) } := by
  have hserver : (lit "PATH_INFO" == lit "SERVER_NAME") = false := by decide
  have hscript : (lit "PATH_INFO" == lit "SCRIPT_NAME") = false := by decide
  simp only [Client.given, paramStore, hserver, hscript, Bool.false_and, Bool.false_eq_true,
    if_false, beq_self_eq_true, hfits, decide_true, Bool.and_self, if_true, cstr_eq_self hnul,
    storedPath]

theorem paramStore_query (env : Env) (n : Nat) :
    paramStore env (lit "QUERY_STRING") n
      = if n < geminiMaxlen && n > 0 then some fun v c => { c with cltQuery := some (cstr v) }
        else none := by
  have hserver : (lit "QUERY_STRING" == lit "SERVER_NAME") = false := by decide
  have hscript : (lit "QUERY_STRING" == lit "SCRIPT_NAME") = false := by decide
  have hpath : (lit "QUERY_STRING" == lit "PATH_INFO") = false := by decide
  have hmethod : (lit "QUERY_STRING" == lit "REQUEST_METHOD") = false := by decide
  rw [paramStore, hserver, hscript, hpath, hmethod, beq_self_eq_true]
  simp only [Bool.false_and, Bool.true_and, Bool.false_eq_true, if_false]

theorem given_query (hnul : 0 ∉ s) (c : Client) :
    c.given env (lit "QUERY_STRING", s)
      = if s.length < 1025 ∧ s ≠ [] then { c with cltQuery := some s } else c := by
  have hiff : (decide (s.length < geminiMaxlen) && decide (s.length > 0)) = true
      ↔ s.length < 1025 ∧ s ≠ [] := by
    rw [Bool.and_eq_true, decide_eq_true_eq, decide_eq_true_eq, gt_iff_lt, List.length_pos_iff]
    rfl
  rw [Client.given, paramStore_query]
  by_cases hfits : s.length < 1025 ∧ s ≠ []
  · rw [if_pos hfits, if_pos (hiff.mpr hfits)]
    simp only [cstr_eq_self hnul]
  · rw [if_neg hfits, if_neg fun h => hfits (hiff.mp h)]

end Stored

theorem legible_params : ∀ n ∈ [lit "SCRIPT_NAME", lit "PATH_INFO", lit "QUERY_STRING"],
    n.length ≤ 31 ∧ 0 ∉ n := by
  decide

/-- An absolute path is put behind the `SCRIPT_NAME`. -/
theorem proxyResurl_absolute {c : Client} {script q past url : Bytes}
    (hscript : c.cltScriptName = some script) (hnot : q.head? ≠ some 47)
    (h : proxyResurl c (47 :: q) past 1025 = some (some url)) : url = script ++ q := by
  have hslashes : (lit "//").isPrefixOf (47 :: q) = false := by
    have hlit : lit "//" = [47, 47] := by decide
    cases q with
    | nil => decide
    | cons b q =>
      have hb : b ≠ 47 := fun h => hnot (h ▸ rfl)
      simp [hlit, List.isPrefixOf, hb.symm]
  have hstrip (name port : Bytes) : stripAuthority name port (47 :: q) = some (47 :: q) := by
    have hgemini : (lit "gemini://").isPrefixOf (47 :: q) = false := rfl
    have hscheme : (lit "://").isPrefixOf
        ((47 :: q).dropWhile fun b => isalpha b || b == 43) = false := rfl
    simp only [stripAuthority, hslashes, hgemini, hscheme, Bool.false_eq_true, if_false]
  rw [proxyResurl] at h
  cases hname : c.cltServerName with
  | none =>
    rw [hname] at h
    cases h
  | some name =>
    cases hpc : c.cltPc with
    | none =>
      rw [hname, hpc] at h
      cases h
    | some pc =>
      simp only [hname, hpc, hstrip, hscript, List.isEmpty_cons, List.head?_cons, Bool.false_or,
        beq_self_eq_true, if_true, Bool.false_eq_true, if_false, List.tail_cons, copyFits,
        (by decide : ¬ 1025 = 0)] at h
      have hcopy := Option.some.inj h
      split at hcopy
      · cases hcopy
      · exact (Option.some.inj hcopy).symm

/-- What stands behind the `SCRIPT_NAME` in such a URL is stored as the path it was made of. -/
theorem storedPath_of_url {script q v : Bytes} (hnot : q.head? ≠ some 47)
    (h : storedScript script ++ q = script ++ v) : storedPath v = 47 :: q := by
  have hlit : lit "/" = [47] := by decide
  rw [storedScript] at h
  split at h
  · have hv := List.append_cancel_left h
    rw [← hv, storedPath, if_neg (by simpa using hnot), hlit]
    rfl
  · rw [List.append_assoc] at h
    have hv := List.append_cancel_left h
    rw [← hv, storedPath, hlit]
    rfl

/-- The web server has sent these parameters in a record for the client `c`, and `d` is what
`fcgi_parse_params` has made of it. -/
def Client.Told (env : Env) (c : Client) (ps : List (Bytes × Bytes)) (d : Client) : Prop :=
  fcgiParseParams env ⟨(ps.flatMap encodePair).length, ps.flatMap encodePair, c⟩
    = (true, ⟨0, [], d⟩)

theorem Client.told (env : Env) (c : Client) {ps : List (Bytes × Bytes)}
    (hps : ∀ p ∈ ps, Legible p) (hlen : (ps.flatMap encodePair).length ≤ 65535) :
    c.Told env ps (ps.foldl (Client.given env) c) := by
  have h := fcgiParseParams_encode env hps hlen [] c
  rwa [List.append_nil] at h

theorem Client.Told.eq {env : Env} {c d : Client} {ps : List (Bytes × Bytes)}
    (h : c.Told env ps d) (hps : ∀ p ∈ ps, Legible p)
    (hlen : (ps.flatMap encodePair).length ≤ 65535) : d = ps.foldl (Client.given env) c :=
  (ParamSt.mk.inj (Prod.mk.inj (Eq.trans (Eq.symm h) (c.told env hps hlen))).2).2.2

theorem legible_of_known {p : Bytes × Bytes}
    (h : p.1 ∈ [lit "SCRIPT_NAME", lit "PATH_INFO", lit "QUERY_STRING"]) : Legible p :=
  ⟨(legible_params p.1 h).1, (legible_params p.1 h).2⟩

/-- **A rewritten link never leads back** to the resource it was made of. The web server maps the
URL to the `SCRIPT_NAME` it was built with and to the rest of it as `PATH_INFO`; what is then sent
has one slash too many, because the `PATH_INFO` comes with one and `proxy_connect` writes
another. -/
theorem rewritten_link_never_returns (env : Env) (net : NetEnv) (f : Fcgi) (c₀ c d₀ d : Client)
    (pc : ProxyConfig) (script p past url v : Bytes)
    (hslash : p.head? = some 47) (hnot : ¬ (lit "//").isPrefixOf p = true)
    (hclean : ∀ b ∈ p, iscntrl b = false) (hnul : 0 ∉ script)
    (hscript : script.length < env.pathMax) (hpath : v.length < env.pathMax)
    (hlen : ([(lit "SCRIPT_NAME", script), (lit "PATH_INFO", v)].flatMap encodePair).length ≤ 65535)
    (hfirst : c₀.Told env [(lit "SCRIPT_NAME", script)] c)
    (hurl : proxyResurl c p past 1025 = some (some url)) (hmapped : url = script ++ v)
    (hquery : d₀.cltQuery = none)
    (hsecond : d₀.Told env [(lit "SCRIPT_NAME", script), (lit "PATH_INFO", v)] d)
    (hconnects : Connects net d pc) :
    ∃ d' bev, proxyConnect net ⟨f, d⟩ = (some (), ⟨f, d'⟩) ∧ d'.cltBev = some bev ∧
      bev.output = lit "gemini://" ++ pc.proxyName ++ lit "/" ++ p ++ lit "\r\n" ∧
      bev.output ≠ lit "gemini://" ++ pc.proxyName ++ p ++ lit "\r\n" := by
  obtain ⟨d', hrun, hbev⟩ := proxyConnect_queues hconnects f
  refine ⟨d', _, hrun, hbev, ?_⟩
  obtain ⟨q, rfl⟩ : ∃ q, p = 47 :: q := by
    cases p with
    | nil => cases hslash
    | cons b q => exact ⟨q, by rw [Option.some.inj hslash]⟩
  have hlit : lit "//" = [47, 47] := by decide
  have hq : q.head? ≠ some 47 := by
    intro h
    cases q with
    | nil => cases h
    | cons b q =>
      obtain rfl := Option.some.inj h
      exact hnot (by rw [hlit]; rfl)
  -- the first request: where the link leads
  have hc : c = { c₀ with cltScriptName := some (storedScript script) } := by
    rw [hfirst.eq (fun r hr => legible_of_known (by simp [List.mem_singleton.mp hr])) ?_]
    · exact given_script hscript hnul c₀
    · rw [List.flatMap_cons, List.length_append] at hlen
      simp only [List.flatMap_cons, List.flatMap_nil, List.append_nil]
      omega
  have hrest : url = storedScript script ++ q :=
    proxyResurl_absolute (c := c) (by rw [hc]) hq hurl
  have hvnul : 0 ∉ v := by
    intro h0
    have hmem : 0 ∈ storedScript script ++ q := by
      rw [← hrest, hmapped]
      exact List.mem_append_right _ h0
    rcases List.mem_append.mp hmem with hmem | hmem
    · rw [storedScript] at hmem
      split at hmem
      · exact hnul hmem
      · rcases List.mem_append.mp hmem with hmem | hmem
        · exact hnul hmem
        · exact absurd hmem (by decide)
    · exact absurd (hclean 0 (List.mem_cons_of_mem _ hmem)) (by decide)
  -- the second: what is sent
  have hd : d = { d₀ with
      cltScriptName := some (storedScript script)
      cltPathInfo := some (47 :: q) } := by
    rw [hsecond.eq (fun r hr => legible_of_known ?_) hlen]
    · rw [List.foldl_cons, List.foldl_cons, List.foldl_nil, given_script hscript hnul,
        given_path hpath hvnul, storedPath_of_url hq (hrest.symm.trans hmapped)]
    · simp only [List.mem_cons, List.not_mem_nil, or_false] at hr
      rcases hr with rfl | rfl <;> simp
  have hcrlf : lit "\r\n" = [13, 10] := by decide
  have hsent : geminiRequest pc d
      = lit "gemini://" ++ pc.proxyName ++ lit "/" ++ 47 :: q ++ lit "\r\n" := by
    have hnone : d.queryPart = [] := by rw [Client.queryPart, hd, hquery]
    rw [@geminiRequest_eq pc d (47 :: q) (by rw [hd]), hnone, hcrlf, List.append_nil]
  refine ⟨hsent, fun h => ?_⟩
  have hlength := congrArg List.length (hsent.symm.trans h)
  have hone : (lit "/").length = 1 := by decide
  simp only [List.length_append, hone] at hlength
  omega

/-- A client that is about to connect. -/
def exampleConnecting : Client :=
  { exampleAwaiting with cltFd := -1, cltP := [⟨[]⟩], cltBev := none }

/-- The link `/a` of a capsule at the root of its host. -/
theorem root_link_does_not_return :
    let d :=
      { exampleConnecting with cltScriptName := some (lit "/"), cltPathInfo := some (lit "/a") }
    exampleConnecting.Told exampleEnv [(lit "SCRIPT_NAME", lit "/"), (lit "PATH_INFO", lit "a")] d ∧
    ∃ d' bev, proxyConnect exampleNet ⟨Fcgi.new [] [], d⟩ = (some (), ⟨Fcgi.new [] [], d'⟩) ∧
      d'.cltBev = some bev ∧
      bev.output = lit "gemini://" ++ lit "h" ++ lit "/" ++ lit "/a" ++ lit "\r\n" ∧
      bev.output ≠ lit "gemini://" ++ lit "h" ++ lit "/a" ++ lit "\r\n" := by
  intro d
  have hlegible : ∀ r ∈ [(lit "SCRIPT_NAME", lit "/"), (lit "PATH_INFO", lit "a")], Legible r := by
    intro r hr
    simp only [List.mem_cons, List.not_mem_nil, or_false] at hr
    rcases hr with rfl | rfl <;> exact legible_of_known (by simp)
  have hfirst := @Client.told exampleEnv exampleConnecting [(lit "SCRIPT_NAME", lit "/")]
    (fun r hr => hlegible r (by simp [List.mem_singleton.mp hr])) (by decide +kernel)
  have hsecond := exampleConnecting.told exampleEnv hlegible (by decide +kernel)
  have hd : [(lit "SCRIPT_NAME", lit "/"), (lit "PATH_INFO", lit "a")].foldl
      (Client.given exampleEnv) exampleConnecting = d := by decide +kernel
  rw [hd] at hsecond
  refine ⟨hsecond, rewritten_link_never_returns exampleEnv exampleNet (Fcgi.new [] [])
    exampleConnecting _ exampleConnecting d
    ⟨lit "h", lit "/s.css", lit "::1", lit "h", lit "1965", true, false, false, false⟩ (lit "/")
    (lit "/a") [] (lit "/a") (lit "a") ?_ ?_ ?_ ?_ ?_ ?_ ?_ hfirst ?_ ?_ rfl hsecond
    ⟨rfl, by decide, rfl, .inl rfl, rfl⟩⟩
  all_goals decide +kernel

/-- A page with a link to `/a`, and what the link leads to. -/
theorem link_gets_double_slash :
    let f := run exampleEnv (Fcgi.new [] []) (Event.answered "20 text/gemini\r\n=> /a\n")
    let g := run exampleEnv (Fcgi.new [] [])
      (Event.asks (paramPair "SCRIPT_NAME" "/" ++ paramPair "PATH_INFO" "a"))
    (answer 1 f.trace).text
        = lit "Content-Type: text/html;charset=utf-8\r\n\r\n" ++
          pageText (tpHead exampleAwaiting [] none ++ [text "<nav><ul>", text "<li><a href='",
            .url (lit "/a"), text "'>", .html (lit "/a"), text "</a></li>", text "</ul></nav>"]
            ++ tpFoot exampleAwaiting) ∧
      g.requests = [lit "gemini://h//a\r\n"] ∧
      lit "gemini://h//a\r\n" ≠ lit "gemini://" ++ lit "h" ++ lit "/a" ++ lit "\r\n" := by
  decide +kernel

end Galileo
