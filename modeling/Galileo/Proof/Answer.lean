import Galileo.Proof.Script

/-!
# What each callback says

The scripts of the callbacks of `proxy.c`, as functions of the client they are called for, and the
proofs that the callbacks follow them. A script is the callback without the machinery of buffers
and return codes: what it writes, and what becomes of the request.

Only `proxy_start_request` looks at something else than its client, the answer of the resolver.
-/

set_option autoImplicit false

namespace Galileo

open Lib Lib.FastCgi

/-- Nothing is said. -/
def idle (c : Client) : Script := ⟨[], .goes c⟩

/-! ## Failures -/

/-- An HTML page about what went wrong, and the end. -/
def failScript (c : Client) (status : Nat) (reason : String) : Script :=
  ⟨[.write (proxyStartReply status (some (lit "text/html"))),
    .write (tpError c (-1) (lit reason))], .ends 1 requestComplete⟩

def failureScript (c : Client) (code : Nat) (reason : Bytes) : Script :=
  ⟨[.write (proxyStartReply 501 (some (lit "text/html"))), .write (tpError c code reason)],
    .ends 1 requestComplete⟩

/-- A page depends on these fields of the client only. -/
theorem failScript_congr {c d : Client} (hscript : d.cltScriptName = c.cltScriptName)
    (hpath : d.cltPathInfo = c.cltPathInfo) (hpc : d.cltPc = c.cltPc) (status : Nat)
    (reason : String) : failScript d status reason = failScript c status reason := by
  simp only [failScript, tpError, tpHead, tpNavigation, tpFoot, hscript, hpath, hpc]

/-- The script of `proxy_error`. -/
def errorScript (err : Nat) (c : Client) : Script :=
  let status : UInt8 := if err &&& evbufferEof = 0 then 1 else 0
  if !c.cltHeadersdone then
    ⟨[.write (proxyStartReply 501 (some (lit "text/html"))),
      .write (tpError c (-1) (lit "Proxy error"))], .ends status requestComplete⟩
  else if status = 0 then ⟨[.write (closePieces c)], .ends status requestComplete⟩
  else ⟨[], .ends status requestComplete⟩

section Failures

variable {c : Client}

theorem failWith_follows (status : Nat) (reason : String) :
    Follows (failWith status reason) c (failScript c status reason) := by
  refine (follows_emit _).bind (s := ⟨[_], _⟩) (.get fun x hx => ?_)
  rw [show tpError x.clt (-1) (lit reason) = tpError c (-1) (lit reason) by rw [hx]; rfl]
  exact (follows_emit _).bind (s := ⟨[], _⟩) (follows_end 1 requestComplete)

/-- For a client whose page looks the same. -/
theorem failWith_follows_of {d : Client} (hscript : d.cltScriptName = c.cltScriptName)
    (hpath : d.cltPathInfo = c.cltPathInfo) (hpc : d.cltPc = c.cltPc) (status : Nat)
    (reason : String) : Follows (failWith status reason) d (failScript c status reason) := by
  rw [← failScript_congr hscript hpath hpc]
  exact failWith_follows status reason

theorem upstreamFailure_follows (code : Nat) (reason : Bytes) :
    Follows (upstreamFailure code reason) c (failureScript c code reason) := by
  refine (follows_emit _).bind (s := ⟨[_], _⟩) (.get fun x hx => ?_)
  rw [show tpError x.clt code reason = tpError c code reason by rw [hx]; rfl]
  exact (follows_emit _).bind (s := ⟨[], _⟩) (follows_end 1 requestComplete)

theorem proxyError_follows (err : Nat) : Follows (proxyError err) c (errorScript err c) := by
  rw [proxyError, errorScript]
  generalize (if err &&& evbufferEof = 0 then (1 : UInt8) else 0) = status
  refine .get fun x hx => ?_
  rw [show x.clt.cltHeadersdone = c.cltHeadersdone by rw [hx],
    show closePieces x.clt = closePieces c by rw [hx]; rfl,
    show tpError x.clt (-1) (lit "Proxy error") = tpError c (-1) (lit "Proxy error") by
      rw [hx]; rfl]
  dsimp only
  split
  · exact (follows_emit _).bind (s := ⟨[_], _⟩)
      ((follows_emit _).bind (s := ⟨[], _⟩) (follows_end status requestComplete))
  · split
    · exact .set rfl rfl (fun _ => rfl)
        ((follows_emit _).bind (s := ⟨[], _⟩) (follows_end status requestComplete))
    · exact follows_end status requestComplete

end Failures

/-! ## Reading -/

/-- The script of the loop of `proxy_translate_gemtext`. -/
def linesScript (oob : Bytes → Bytes) : Nat → Client → Script
  | 0, c => idle c
  | n + 1, c =>
      match c.cltBev with
      | none => idle c
      | some bev =>
          match readlnCrlf bev.input with
          | none => idle c
          | some (line, rest) =>
              match gemtextTranslateLine c (cstrPast (oob bev.input) line).1
                  (cstrPast (oob bev.input) line).2 with
              | none => ⟨[], .crashed⟩
              | some (ps, tr) =>
                  (linesScript oob n { c with
                    cltBev := some { bev with input := rest }
                    cltTranslate := tr }).after [.write ps]

/-- The script of `proxy_read` when the headers are done. -/
def bodyScript (oob : Bytes → Bytes) (c : Client) : Script :=
  match c.cltBev with
  | none => idle c
  | some bev =>
      if c.cltTranslate.any then linesScript oob bev.input.length c
      else ⟨[.direct bev.input], .goes { c with cltBev := some { bev with input := [] } }⟩

/-- The script for a `2x` status. -/
def successScript (oob : Bytes → Bytes) (mime : Bytes) (c : Client) : Script :=
  let r := parseMime c.cltTranslate mime
  match r.2 with
  | none => failScript c 501 "Bad response"
  | some lang =>
      let ctype := if r.1.any then lit "text/html;charset=utf-8" else mime
      (bodyScript oob { c with cltTranslate := r.1, cltHeadersdone := true }).after
        [.write [.raw (lit "Content-Type: " ++ ctype ++ lit "\r\n\r\n")],
          if r.1.any then .write (tpHead c lang none) else .flush]

/-- The script for a well-formed status line. -/
def statusScript (oob : Bytes → Bytes) (behind : Bytes) (h0 h1 : UInt8) (rest : Bytes)
    (c : Client) : Script :=
  let code := (h0 - 48).toNat * 10 + (h1 - 48).toNat
  let reason := cstrPast behind rest
  if h0 == 49 then
    ⟨[.write (proxyStartReply 200 (some (lit "text/html"))), .write (tpInputpage c reason.1)],
      .ends 0 requestComplete⟩
  else if h0 == 50 then successScript oob (reason.1.dropWhile isblank) c
  else if h0 == 51 then
    match proxyResurl c reason.1 reason.2 1025 with
    | none => ⟨[], .crashed⟩
    | some (some buf) => ⟨[.write (proxyStartReply 302 (some buf))], .ends 0 requestComplete⟩
    | some none => failureScript c code reason.1
  else failureScript c code reason.1

/-- The script for a line that ends in CR LF. -/
def headerScript (oob : Bytes → Bytes) (behind hdr : Bytes) (c : Client) : Script :=
  match hdr with
  | h0 :: h1 :: h2 :: h3 :: more =>
      if isdigit h0 && isdigit h1 && h2 == 32 then statusScript oob behind h0 h1 (h3 :: more) c
      else errorScript evRead c
  | _ => errorScript evRead c

/-- The script of `proxy_read`. -/
def readScript (oob : Bytes → Bytes) (c : Client) : Script :=
  match c.cltBev with
  | none => idle c
  | some bev =>
      if c.cltHeadersdone then bodyScript oob c
      else match readlnCrlfStrict bev.input with
        | none => if bev.input.length ≥ 1026 then errorScript evRead c else idle c
        | some (hdr, rest) =>
            headerScript oob (oob bev.input) hdr
              { c with cltBev := some { bev with input := rest } }

/-- Bytes arrive from the Gemini server. -/
def upstreamScript (oob : Bytes → Bytes) (bytes : Bytes) (c : Client) : Script :=
  match c.cltBev with
  | none => idle c
  | some bev => readScript oob { c with cltBev := some { bev with input := bev.input ++ bytes } }

section Reading

variable {c : Client}

theorem translateLoop_follows (oob : Bytes → Bytes) (n : Nat) :
    Follows (translateLoop oob n) c (linesScript oob n c) := by
  induction n generalizing c with
  | zero => exact .pure
  | succ n ih =>
    rw [translateLoop, linesScript]
    refine .get fun x hx => ?_
    rw [show x.clt.cltBev = c.cltBev by rw [hx]]
    cases c.cltBev with
    | none => exact .pure
    | some bev =>
      dsimp only
      cases readlnCrlf bev.input with
      | none => exact .pure
      | some p =>
        obtain ⟨line, rest⟩ := p
        dsimp only
        rw [show gemtextTranslateLine x.clt = gemtextTranslateLine c by rw [hx]; rfl]
        refine .set rfl rfl (fun _ => rfl) ?_
        cases gemtextTranslateLine c (cstrPast (oob bev.input) line).1
          (cstrPast (oob bev.input) line).2 with
        | none => exact follows_crash
        | some r => exact .set rfl rfl (fun _ => rfl) ((follows_emit r.1).bind ih)

theorem proxyReadBody_follows (oob : Bytes → Bytes) :
    Follows (proxyReadBody oob) c (bodyScript oob c) := by
  rw [bodyScript]
  refine .get fun x hx => ?_
  rw [show x.clt.cltTranslate = c.cltTranslate by rw [hx]]
  cases hbev : c.cltBev with
  | none =>
    split
    · refine .get fun y hy => ?_
      rw [show y.clt.cltBev = none by rw [hy]; exact hbev]
      exact .pure
    · refine .get fun y hy => ?_
      rw [show y.clt.cltBev = none by rw [hy]; exact hbev]
      exact .pure
  | some bev =>
    dsimp only
    split
    · refine .get fun y hy => ?_
      rw [show y.clt.cltBev = some bev by rw [hy]; exact hbev]
      exact translateLoop_follows oob bev.input.length
    · exact follows_direct hbev

theorem proxyReadSuccess_follows (oob : Bytes → Bytes) (mime : Bytes) :
    Follows (proxyReadSuccess oob mime) c (successScript oob mime c) := by
  rw [successScript]
  refine .get fun x hx => ?_
  rw [show x.clt.cltTranslate = c.cltTranslate by rw [hx],
    show tpHead x.clt = tpHead c by rw [hx]; rfl]
  dsimp only
  generalize parseMime c.cltTranslate mime = r
  refine .set rfl rfl (fun _ => rfl) ?_
  cases r.2 with
  | none => exact failWith_follows 501 "Bad response"
  | some lang =>
    refine (follows_emit _).bind (s := ⟨_ :: _, _⟩) (.set rfl rfl (fun _ => rfl) ?_)
    dsimp only
    split
    · exact (follows_emit _).bind (proxyReadBody_follows oob)
    · exact follows_flush.bind (proxyReadBody_follows oob)

theorem proxyReadStatus_follows (oob : Bytes → Bytes) (behind : Bytes) (h0 h1 : UInt8)
    (rest : Bytes) :
    Follows (proxyReadStatus oob behind h0 h1 rest) c (statusScript oob behind h0 h1 rest c) := by
  rw [statusScript]
  refine .get fun x hx => ?_
  rw [show tpInputpage x.clt = tpInputpage c by rw [hx]; rfl,
    show proxyResurl x.clt = proxyResurl c by rw [hx]; rfl]
  dsimp only
  split
  · exact (follows_emit _).bind (s := ⟨[_], _⟩)
      ((follows_emit _).bind (s := ⟨[], _⟩) (follows_end 0 requestComplete))
  split
  · exact proxyReadSuccess_follows oob _
  split
  · rcases proxyResurl c (cstrPast behind rest).1 (cstrPast behind rest).2 1025 with _ | _ | buf
    · exact follows_crash
    · exact upstreamFailure_follows _ _
    · exact (follows_emit _).bind (s := ⟨[], _⟩) (follows_end 0 requestComplete)
  · exact upstreamFailure_follows _ _

theorem proxyRead_follows (oob : Bytes → Bytes) :
    Follows (proxyRead oob) c (readScript oob c) := by
  rw [readScript]
  refine .get fun x hx => ?_
  rw [show x.clt.cltBev = c.cltBev by rw [hx],
    show x.clt.cltHeadersdone = c.cltHeadersdone by rw [hx]]
  cases c.cltBev with
  | none => exact .pure
  | some bev =>
    dsimp only
    split
    · exact proxyReadBody_follows oob
    · cases readlnCrlfStrict bev.input with
      | none =>
        dsimp only
        split
        · exact proxyError_follows evRead
        · exact .pure
      | some p =>
        obtain ⟨hdr, rest⟩ := p
        refine .set rfl rfl (fun _ => rfl) ?_
        rcases hdr with _ | ⟨h0, _ | ⟨h1, _ | ⟨h2, _ | ⟨h3, more⟩⟩⟩⟩
        case cons.cons.cons.cons =>
          dsimp only [headerScript]
          split
          · exact proxyReadStatus_follows oob _ _ _ _
          · exact proxyError_follows evRead
        all_goals exact proxyError_follows evRead

/-- **What is said when bytes arrive from the Gemini server.** -/
theorem upstreamRead_follows (oob : Bytes → Bytes) (bytes : Bytes) :
    Follows (upstreamRead oob bytes) c (upstreamScript oob bytes c) := by
  rw [upstreamScript]
  refine .get fun x hx => ?_
  rw [show x.clt.cltBev = c.cltBev by rw [hx]]
  cases c.cltBev with
  | none => exact .pure
  | some bev => exact .set rfl rfl (fun _ => rfl) (proxyRead_follows oob)

/-! What reading leaves: other fields of the client stay, and a null pointer is only followed when
one of two of them is missing. -/

theorem proxyResurl_none {url past : Bytes} {len : Nat} (h : proxyResurl c url past len = none) :
    c.cltPc = none ∨ c.cltScriptName = none := by
  unfold proxyResurl at h
  cases hname : c.cltServerName with
  | none => simp [hname] at h
  | some name =>
    cases hpc : c.cltPc with
    | none => exact .inl rfl
    | some pc =>
      cases hprfx : c.cltScriptName with
      | none => exact .inr rfl
      | some prfx =>
        simp only [hname, hpc, hprfx] at h
        split at h
        · cases h
        · split at h
          · cases h
          · split at h <;> cases h

theorem gemtextLink_none {tr : Translate} {line past : Bytes}
    (h : gemtextLink c tr line past = none) : c.cltPc = none ∨ c.cltScriptName = none := by
  unfold gemtextLink at h
  generalize cutLink line past = cut at h
  obtain ⟨url, label, past⟩ := cut
  dsimp only at h
  cases hpc : c.cltPc with
  | none => exact .inl rfl
  | some pc =>
    cases hurl : linkUrl c url past with
    | some buf =>
      rw [hpc, hurl] at h
      dsimp only at h
      split at h <;> cases h
    | none =>
      rw [← hpc]
      refine @proxyResurl_none c url past 1025 ?_
      rw [linkUrl] at hurl
      cases hr : proxyResurl c url past 1025 with
      | none => rfl
      | some r =>
        rw [hr] at hurl
        cases r <;> cases hurl

theorem gemtextTranslateLine_none {line past : Bytes}
    (h : gemtextTranslateLine c line past = none) :
    c.cltPc = none ∨ c.cltScriptName = none := by
  unfold gemtextTranslateLine at h
  dsimp only at h
  split_ifs at h
  all_goals exact gemtextLink_none (Option.map_eq_none_iff.mp h)

/-- Of the fields of `c` only those have changed that reading is about, and the `bufferevent` is
still there. -/
def Client.Reads (c d : Client) : Prop :=
  ∃ bev tr done, d = { c with cltBev := bev, cltTranslate := tr, cltHeadersdone := done } ∧
    (c.cltBev.isSome = true → bev.isSome = true)

theorem Client.Reads.refl (c : Client) : c.Reads c := ⟨c.cltBev, _, _, rfl, id⟩

def Next.Reads (c : Client) : Next → Prop
  | .goes d => c.Reads d
  | .ends _ _ => True
  | .crashed => c.cltPc = none ∨ c.cltScriptName = none

/-- Something was read before. -/
theorem Next.Reads.congr {d : Client} {n : Next} (hcd : c.Reads d) (h : n.Reads d) :
    n.Reads c := by
  obtain ⟨bev, tr, done, rfl, hbev⟩ := hcd
  cases n with
  | goes e =>
    obtain ⟨bev', tr', done', rfl, hbev'⟩ := h
    exact ⟨bev', tr', done', rfl, hbev' ∘ hbev⟩
  | ends status proto => trivial
  | crashed => exact h

theorem linesScript_reads (oob : Bytes → Bytes) (n : Nat) :
    (linesScript oob n c).next.Reads c := by
  induction n generalizing c with
  | zero => exact .refl c
  | succ n ih =>
    rw [linesScript]
    cases c.cltBev with
    | none => exact .refl c
    | some bev =>
      dsimp only
      cases readlnCrlf bev.input with
      | none => exact .refl c
      | some p =>
        dsimp only
        cases hline : gemtextTranslateLine c (cstrPast (oob bev.input) p.1).1
          (cstrPast (oob bev.input) p.1).2 with
        | none => exact gemtextTranslateLine_none hline
        | some r => exact .congr ⟨_, r.2, _, rfl, fun _ => rfl⟩ ih

theorem bodyScript_reads (oob : Bytes → Bytes) : (bodyScript oob c).next.Reads c := by
  rw [bodyScript]
  cases c.cltBev with
  | none => exact .refl c
  | some bev =>
    dsimp only
    split
    · exact linesScript_reads oob _
    · exact ⟨_, _, _, rfl, fun _ => rfl⟩

theorem errorScript_reads (err : Nat) : (errorScript err c).next.Reads c := by
  rw [errorScript]
  split_ifs <;> trivial

theorem headerScript_reads (oob : Bytes → Bytes) (behind hdr : Bytes) :
    (headerScript oob behind hdr c).next.Reads c := by
  rcases hdr with _ | ⟨h0, _ | ⟨h1, _ | ⟨h2, _ | ⟨h3, more⟩⟩⟩⟩
  case cons.cons.cons.cons =>
    rw [headerScript]
    split
    · rw [statusScript]
      split_ifs
      · trivial
      · rw [successScript]
        generalize parseMime c.cltTranslate _ = r
        cases r.2 with
        | none => trivial
        | some lang => exact .congr ⟨c.cltBev, r.1, true, rfl, id⟩ (bodyScript_reads oob)
      · rcases hr : proxyResurl c (cstrPast behind (h3 :: more)).1
          (cstrPast behind (h3 :: more)).2 1025 with _ | _ | buf
        · exact proxyResurl_none hr
        · trivial
        · trivial
      · trivial
    · exact errorScript_reads evRead
  all_goals exact errorScript_reads evRead

theorem upstreamScript_reads (oob : Bytes → Bytes) (bytes : Bytes) :
    (upstreamScript oob bytes c).next.Reads c := by
  have hbev (bev : Bufferevent) : c.Reads { c with cltBev := some bev } :=
    ⟨some bev, _, _, rfl, fun _ => rfl⟩
  rw [upstreamScript]
  cases c.cltBev with
  | none => exact .refl c
  | some bev =>
    refine .congr (hbev { bev with input := bev.input ++ bytes }) ?_
    dsimp only
    rw [readScript]
    dsimp only
    split
    · exact bodyScript_reads oob
    · cases readlnCrlfStrict (bev.input ++ bytes) with
      | none =>
        dsimp only
        split
        · exact errorScript_reads evRead
        · exact .refl _
      | some p => exact .congr ⟨some _, _, _, rfl, fun _ => rfl⟩ (headerScript_reads oob _ _)

end Reading

/-! ## Starting and connecting -/

/-- The script of `proxy_connect`. -/
def connectScript (net : NetEnv) (c : Client) : Script :=
  let r := connectAgain net c.cltFd net.sockets c.cltP
  match r.1, c.cltPc with
  | .wait, _ => idle { c with cltFd := r.2.1, cltP := r.2.2, cltEvconnLive := true }
  | _, none => ⟨[], .crashed⟩
  | .err, some _ => failScript c 501 "Can't connect"
  | .done, some pc =>
      if !net.bevNew || !pc.noTls && !net.tls || !net.queued then failScript c 501 "Can't connect"
      else idle { c with
        cltFd := r.2.1
        cltP := []
        cltEvconnLive := false
        cltBev := some ⟨[], geminiRequest pc c⟩ }

/-- The script of `proxy_resolved`. -/
def resolvedScript (res : Option (List Addrinfo)) (net : NetEnv) (c : Client) : Script :=
  match res, c.cltPc with
  | none, none => ⟨[], .crashed⟩
  | none, some _ => failScript c 501 "Can't resolve host"
  | some addrs, _ => connectScript net { c with cltEvasr := false, cltP := addrs }

/-- The script of the end of `proxy_start_request`, by the resolver's answer. -/
def resolverScript (asr : List AsrAnswer) (c : Client) : Script :=
  match asr with
  | .noQuery :: _ | .noRun :: _ => ⟨[], .ends 1 overloaded⟩
  | .running :: _ | [] => idle { c with cltEvasr := true }

/-- The script of `proxy_start_request`. -/
def startScript (env : Env) (asr : List AsrAnswer) (c : Client) : Script :=
  match c.cltPathInfo with
  | none => failScript c 501 "internal server error"
  | some path =>
      let c := { c with cltPc := proxyMatch env c.cltServerName }
      match c.cltPc with
      | none => failScript c 501 "unknown server"
      | some _ =>
          if c.cltBodylen != 0 && c.cltBody.isNone then failScript c 400 "bad request"
          else match c.cltBody with
            | some body =>
                let prfx := c.cltScriptName.getD nullString
                ⟨[.write (proxyStartReply 302 (some (prfx ++ path.tail ++ lit "?" ++ body)))],
                  .ends 1 requestComplete⟩
            | none => resolverScript asr c

section Starting

variable {c : Client}

theorem proxyConnect_follows (net : NetEnv) :
    Follows (proxyConnect net) c (connectScript net c) := by
  rw [connectScript]
  refine .get fun x hx => ?_
  rw [show x.clt.cltFd = c.cltFd by rw [hx], show x.clt.cltP = c.cltP by rw [hx],
    show x.clt.cltPc = c.cltPc by rw [hx]]
  generalize connectAgain net c.cltFd net.sockets c.cltP = r
  refine .set rfl rfl (fun _ => rfl) ?_
  cases hpc : c.cltPc with
  | none =>
    rcases r.1 with _ | _ | _
    · exact follows_crash
    · exact follows_crash
    · exact Follows.setClt rfl rfl fun _ => rfl
  | some pc =>
    rcases r.1 with _ | _ | _
    · exact failWith_follows_of (by rfl) (by rfl) (by exact hpc.symm) _ _
    · refine .set rfl rfl (fun _ => rfl) ?_
      dsimp only
      cases net.bevNew with
      | false => exact failWith_follows_of (by rfl) (by rfl) (by exact hpc.symm) _ _
      | true =>
        refine .set rfl rfl (fun _ => rfl) ?_
        cases pc.noTls <;> cases net.tls
        case false.false => exact failWith_follows_of (by rfl) (by rfl) (by exact hpc.symm) _ _
        all_goals
          cases net.queued with
          | false => exact failWith_follows_of (by rfl) (by rfl) (by exact hpc.symm) _ _
          | true =>
            exact Follows.setClt (u := fun c => { c with cltBev := some ⟨[], geminiRequest pc c⟩ })
              rfl rfl fun _ => rfl
    · exact Follows.setClt rfl rfl fun _ => rfl

theorem proxyResolved_follows (res : Option (List Addrinfo)) (net : NetEnv) :
    Follows (proxyResolved res net) c (resolvedScript res net c) := by
  rw [resolvedScript.eq_def]
  refine .set rfl rfl (fun _ => rfl) (.get fun x hx => ?_)
  rw [show x.clt.cltPc = c.cltPc by rw [hx]]
  rcases res with _ | addrs
  · cases hpc : c.cltPc with
    | none => exact follows_crash
    | some pc => exact failWith_follows_of (by rfl) (by rfl) (by exact hpc.symm) _ _
  · exact .set rfl rfl (fun _ => rfl) (proxyConnect_follows net)

/-- The same script for a context that differs in what no script looks at. -/
theorem Plays.of_like {x y : Ctx} {s : Script} {rest : List AsrAnswer} {r : Option Unit × Ctx}
    (hf : y.fcgi = { x.fcgi with asr := rest }) (hid : y.clt.cltId = x.clt.cltId)
    (hserial : y.clt.serial = x.clt.serial) (htp : y.clt.cltTp = x.clt.cltTp) (h : Plays s y r) :
    Plays s x r := by
  obtain ⟨f, c⟩ := y
  dsimp only at hf hid hserial htp
  subst hf
  cases h with
  | @goes c' ds ws as tp hnext hid' hserial' hds hws htext hcap =>
    dsimp only at hid' hserial' htext hcap ⊢
    rw [htp] at htext hcap
    rw [hid]
    exact @Plays.goes s x c' ds ws as tp hnext (hid'.trans hid) (hserial'.trans hserial) hds hws
      htext hcap
  | @ends status proto ds ws as d hnext hds hws htext hid' =>
    dsimp only at htext hid' ⊢
    rw [htp] at htext
    rw [Fcgi.finish_congr _ hid hserial, hid]
    exact @Plays.ends s x status proto ds ws as d hnext hds hws htext (hid'.trans hid)
  | @crashed ds ws as d hnext hds hws htext =>
    dsimp only at htext ⊢
    rw [htp] at htext
    rw [hid]
    exact @Plays.crashed s x ds ws as d hnext hds hws htext
  | @torn ds ws as out d hfail hds hws htext hout =>
    dsimp only at htext hout ⊢
    rw [htp] at htext
    rw [hid] at hout ⊢
    exact @Plays.torn s x ds ws as out d hfail hds hws htext hout

theorem Follows.plays {m : Prog Ctx Unit} {c : Client} {s : Script} (h : Follows m c s) (f : Fcgi) :
    Plays s ⟨f, c⟩ (m ⟨f, c⟩) :=
  h ⟨f, c⟩ rfl

theorem startResolver_plays (x : Ctx) :
    Plays (resolverScript x.fcgi.asr x.clt) x (startResolver x) := by
  have hset : Follows (setClt fun c => { c with cltEvasr := true }) x.clt
      (idle { x.clt with cltEvasr := true }) := Follows.setClt rfl rfl fun _ => rfl
  rw [startResolver, Prog.get_bind]
  rcases hasr : x.fcgi.asr with _ | ⟨_ | _ | _, rest⟩
  · exact hset x rfl
  · exact .of_like (y := ⟨{ x.fcgi with asr := rest }, x.clt⟩) rfl rfl rfl rfl (hset _ rfl)
  · exact .of_like (y := ⟨{ x.fcgi with asr := rest }, x.clt⟩) rfl rfl rfl rfl
      (follows_end 1 overloaded _ rfl)
  · have hend : Follows (do
        setClt fun c => { c with cltEvasr := false }
        fcgiAbortRequest) x.clt ⟨[], .ends 1 overloaded⟩ :=
      .set rfl rfl (fun _ => rfl) (follows_end 1 overloaded)
    exact .of_like (y := ⟨{ x.fcgi with asr := rest }, x.clt⟩) rfl rfl rfl rfl (hend _ rfl)

/-- **What is said when a request is started.** The start itself is noted first. -/
theorem proxyStartRequest_plays (env : Env) (x : Ctx) :
    Plays (startScript env x.fcgi.asr x.clt)
      ⟨x.fcgi.observe (.started x.clt.serial), x.clt⟩ (proxyStartRequest env x) := by
  rw [proxyStartRequest, Prog.modify_bind, Prog.get_bind]
  generalize hf : x.fcgi.observe (.started x.clt.serial) = f
  have hasr : f.asr = x.fcgi.asr := by rw [← hf]; rfl
  dsimp only
  rw [startScript, ← hasr]
  rcases x with ⟨f₀, c⟩
  dsimp only
  cases hpath : c.cltPathInfo with
  | none => exact failWith_follows 501 "internal server error" ⟨f, c⟩ rfl
  | some path =>
    dsimp only
    rw [setClt, Prog.modify_bind]
    dsimp only
    generalize proxyMatch env c.cltServerName = pc
    refine .of_like (y := ⟨f, { c with cltPc := pc }⟩) rfl rfl rfl rfl ?_
    rcases pc with _ | pc
    · exact (failWith_follows_of (by rfl) (by exact hpath) (by rfl) _ _).plays f
    dsimp only
    split
    · exact (failWith_follows_of (by rfl) (by exact hpath) (by rfl) _ _).plays f
    rcases c.cltBody with _ | body
    · rw [← hpath]
      exact startResolver_plays ⟨f, _⟩
    · exact ((follows_emit _).bind (s := ⟨[], _⟩) (follows_end 1 requestComplete)).plays f

end Starting

end Galileo
