import Galileo.Model.Gemtext

/-!
# Serving a request (`proxy.c`, second part)

From the moment the parameters of a request are complete (`proxy_start_request`) to its end: the
resolver's answer, the connection to the Gemini server, the status line, the body, the end of
file. Each function is the libevent callback of the same name; what the system answers to the
calls it makes is in `NetEnv`.
-/

set_option autoImplicit false

namespace Galileo

open Lib Lib.FastCgi

/-! ## Reply heads -/

def csp : Bytes :=
  lit "Content-Security-Policy: default-src 'self'; script-src 'none'; object-src 'none';\r\n"

/-- What `%s` prints for a null pointer. -/
def nullString : Bytes := lit "(null)"

/-- `proxy_start_reply(clt, status, ctype)`; for a redirect `ctype` is the target. -/
def proxyStartReply (status : Nat) (ctype : Option Bytes) : List Piece :=
  (if status != 200 then [.raw (lit "Status: " ++ fmtNat status ++ lit "\r\n")] else [])
    ++ [.raw csp]
    ++ (if status == 302 then
          [.raw (lit "Location: " ++ ctype.getD nullString ++ lit "\r\n"), text "\r\n"]
        else
          (match ctype with
            | some c =>
                let c := if c == lit "text/html" then lit "text/html;charset=utf-8" else c
                [.raw (lit "Content-Type: " ++ c ++ lit "\r\n")]
            | none => [])
          ++ [text "\r\n"])

/-- An HTML page in answer to something that went wrong, and the end of the request. -/
def failWith (status : Nat) (reason : String) : CltM Unit := do
  emit (proxyStartReply status (some (lit "text/html")))
  let x ← Prog.get
  emit (tpError x.clt (-1) (lit reason))
  fcgiEndRequest 1

/-! ## Starting -/

/-- `proxy_match`. -/
def proxyMatch (env : Env) (name : Option Bytes) : Option ProxyConfig :=
  match name with
  | none => none
  | some name => env.scProxies.find? fun pr => pr.host == name

/-- The last part of `proxy_start_request`: ask the resolver. -/
def startResolver : CltM Unit := do
  let x ← Prog.get
  match x.fcgi.asr with
  | .noQuery :: rest => do
      onFcgi (Prog.modify fun f => { f with asr := rest })
      fcgiAbortRequest
  | .noRun :: rest => do
      onFcgi (Prog.modify fun f => { f with asr := rest })
      setClt fun c => { c with cltEvasr := false }
      fcgiAbortRequest
  | .running :: rest => do
      onFcgi (Prog.modify fun f => { f with asr := rest })
      setClt fun c => { c with cltEvasr := true }
  | [] => setClt fun c => { c with cltEvasr := true }

/-- `proxy_start_request`. -/
def proxyStartRequest (env : Env) : CltM Unit := do
  Prog.modify fun x => { x with fcgi := x.fcgi.observe (.started x.clt.serial) }
  let x ← Prog.get
  match x.clt.cltPathInfo with
  | none => failWith 501 "internal server error"
  | some path =>
      setClt fun c => { c with cltPc := proxyMatch env c.cltServerName }
      match proxyMatch env x.clt.cltServerName with
      | none => failWith 501 "unknown server"
      | some _ =>
          if x.clt.cltBodylen != 0 && x.clt.cltBody.isNone then failWith 400 "bad request"
          else match x.clt.cltBody with
            | some body => do
                let prfx := x.clt.cltScriptName.getD nullString
                emit (proxyStartReply 302 (some (prfx ++ path.tail ++ lit "?" ++ body)))
                fcgiEndRequest 1
            | none => startResolver

/-! ## Connecting -/

/-- What the system answers during one run of `proxy_connect`. -/
structure NetEnv where
  /-- `SO_ERROR`, or `none` when `getsockopt` fails. -/
  soError : Option Nat
  /-- The results of the `socket` calls, in order. -/
  sockets : List (Option Nat)
  /-- Whether `connect` returns 0. -/
  connected : Bool
  /-- Whether `bufferevent_new` succeeds. -/
  bevNew : Bool
  /-- Whether the calls that set TLS up all succeed. -/
  tls : Bool
  /-- Whether the calls that queue the request all succeed. -/
  queued : Bool

/-- Where the `again` loop of `proxy_connect` goes. -/
inductive Attempt where
  | err
  | done
  | wait
deriving DecidableEq

/-- The `again` loop: where it goes, `clt_fd` and `clt_p` afterwards. -/
def connectAgain (net : NetEnv) (fd : Int) : List (Option Nat) → List Addrinfo →
    Attempt × Int × List Addrinfo
  | _, [] => (.err, fd, [])
  | socks, p :: ps =>
      if fd ≠ -1 then
        if net.soError = some 0 then (.done, fd, p :: ps) else (.err, fd, p :: ps)
      else match socks with
        | none :: socks => connectAgain net fd socks ps
        | some s :: _ => (if net.connected then .done else .wait, (s : Int), p :: ps)
        | [] => (if net.connected then .done else .wait, 0, p :: ps)

/-- The request line sent to the Gemini server. -/
def geminiRequest (pc : ProxyConfig) (clt : Client) : Bytes :=
  lit "gemini://" ++ pc.proxyName ++ lit "/" ++ clt.cltPathInfo.getD nullString
    ++ (match clt.cltQuery with
        | some q => lit "?" ++ q
        | none => [])
    ++ lit "\r\n"

/-- `proxy_connect`. All its ways out but the asynchronous one use `clt_pc`. -/
def proxyConnect (net : NetEnv) : CltM Unit := do
  let x ← Prog.get
  let r := connectAgain net x.clt.cltFd net.sockets x.clt.cltP
  setClt fun c => { c with cltFd := r.2.1, cltP := r.2.2 }
  match r.1, x.clt.cltPc with
  | .wait, _ => setClt fun c => { c with cltEvconnLive := true }
  | _, none => crash
  | .err, some _ => failWith 501 "Can't connect"
  | .done, some pc => do
      setClt fun c => { c with cltEvconnLive := false, cltP := [] }
      if !net.bevNew then failWith 501 "Can't connect"
      else do
        setClt fun c => { c with cltBev := some ⟨[], []⟩ }
        if !pc.noTls && !net.tls then failWith 501 "Can't connect"
        else if !net.queued then failWith 501 "Can't connect"
        else setClt fun c => { c with cltBev := some ⟨[], geminiRequest pc c⟩ }

/-- `proxy_resolved`: the resolver failed, or the addresses it found. -/
def proxyResolved (res : Option (List Addrinfo)) (net : NetEnv) : CltM Unit := do
  setClt fun c => { c with cltEvasr := false }
  let x ← Prog.get
  match res, x.clt.cltPc with
  | none, none => crash
  | none, some _ => failWith 501 "Can't resolve host"
  | some addrs, _ => do
      setClt fun c => { c with cltP := addrs }
      proxyConnect net

/-! ## The end -/

def evRead : Nat := 0x02
def evbufferEof : Nat := 0x10

/-- What `proxy_error` writes at a clean end of file, and the bits it clears. -/
def closePieces (clt : Client) : List Piece :=
  (if clt.cltTranslate.pre then tpPreClose else [])
    ++ (if clt.cltTranslate.list then [text "</ul>"] else [])
    ++ (if clt.cltTranslate.nav then [text "</ul></nav>"] else [])
    ++ (if clt.cltTranslate.enabled then tpFoot clt else [])

/-- `proxy_error`. -/
def proxyError (err : Nat) : CltM Unit := do
  let status : UInt8 := if err &&& evbufferEof = 0 then 1 else 0
  let x ← Prog.get
  if !x.clt.cltHeadersdone then do
    emit (proxyStartReply 501 (some (lit "text/html")))
    emit (tpError x.clt (-1) (lit "Proxy error"))
  else if status = 0 then do
    setClt fun c =>
      { c with cltTranslate := { c.cltTranslate with pre := false, list := false, nav := false } }
    emit (closePieces x.clt)
  fcgiEndRequest status

/-! ## The status line -/

/-- The tokens `strsep(&s, ";")` returns until it returns `NULL`. -/
def strsepAll : Bytes → List Bytes
  | [] => [[]]
  | b :: s =>
      if b == 59 then [] :: strsepAll s
      else match strsepAll s with
        | t :: ts => (b :: t) :: ts
        | [] => [[b]]

/-- The loop of `parse_mime` over the parameters, with `lang` so far; `none` is a return of
`-1`. -/
def parseMimeParams : List Bytes → Bytes → Option Bytes
  | [], lang => some lang
  | t :: ts, lang =>
      if (lit "charset=").isPrefixOf t then
        let t := t.drop 8
        if caseEq (t.take 4) (lit "utf8") || caseEq (t.take 5) (lit "utf-8")
            || caseEq (t.take 5) (lit "ascii") then none
        else parseMimeParams ts lang
      else if (lit "lang=").isPrefixOf t then
        let t := t.drop 5
        parseMimeParams ts (if t.length ≥ 16 then [] else t)
      else parseMimeParams ts lang

/-- `parse_mime`: the bits it leaves in `clt_translate`, and `lang` unless it returns `-1`. -/
def parseMime (tr : Translate) (mime : Bytes) : Translate × Option Bytes :=
  if !(lit "text/gemini").isPrefixOf mime then (tr, some [])
  else
    ({ Translate.zero with enabled := true },
      match strchr 59 mime with
      | none => some []
      | some params => parseMimeParams (strsepAll params.tail) [])

/-! ## Reading -/

/-- `proxy_read` once the headers are done. -/
def proxyReadBody (oob : Bytes → Bytes) : CltM Unit := do
  let x ← Prog.get
  if x.clt.cltTranslate.any then proxyTranslateGemtext oob
  else cltWriteBufferevent

/-- The part of `proxy_read` for a `2x` status: `mime` is the rest of the line. -/
def proxyReadSuccess (oob : Bytes → Bytes) (mime : Bytes) : CltM Unit := do
  let x ← Prog.get
  let r := parseMime x.clt.cltTranslate mime
  setClt fun c => { c with cltTranslate := r.1 }
  match r.2 with
  | none => failWith 501 "Bad response"
  | some lang => do
      let ctype := if r.1.any then lit "text/html;charset=utf-8" else mime
      emit [.raw (lit "Content-Type: " ++ ctype ++ lit "\r\n\r\n")]
      setClt fun c => { c with cltHeadersdone := true }
      if r.1.any then emit (tpHead x.clt lang none) else cltFlush
      proxyReadBody oob

/-- An upstream failure, reported with the server's own words. -/
def upstreamFailure (code : Nat) (reason : Bytes) : CltM Unit := do
  emit (proxyStartReply 501 (some (lit "text/html")))
  let x ← Prog.get
  emit (tpError x.clt code reason)
  fcgiEndRequest 1

/-- `proxy_read` with a well-formed status line: two digits `h0` and `h1`, a blank, `rest`. `oob`
is the memory behind the line. -/
def proxyReadStatus (oob : Bytes → Bytes) (behind : Bytes) (h0 h1 : UInt8) (rest : Bytes) :
    CltM Unit := do
  let x ← Prog.get
  let code := (h0 - 48).toNat * 10 + (h1 - 48).toNat
  let reason := cstrPast behind rest
  if h0 == 49 then do
    emit (proxyStartReply 200 (some (lit "text/html")))
    emit (tpInputpage x.clt reason.1)
    fcgiEndRequest 0
  else if h0 == 50 then proxyReadSuccess oob (reason.1.dropWhile isblank)
  else if h0 == 51 then
    match proxyResurl x.clt reason.1 reason.2 1025 with
    | none => crash
    | some (some buf) => do
        emit (proxyStartReply 302 (some buf))
        fcgiEndRequest 0
    | some none => upstreamFailure code reason.1
  else upstreamFailure code reason.1

/-- `proxy_read`. -/
def proxyRead (oob : Bytes → Bytes) : CltM Unit := do
  let x ← Prog.get
  match x.clt.cltBev with
  | none => pure ()
  | some bev =>
      if x.clt.cltHeadersdone then proxyReadBody oob
      else match readlnCrlfStrict bev.input with
        | none => if bev.input.length ≥ 1026 then proxyError evRead else pure ()
        | some (hdr, rest) => do
            setClt fun c => { c with cltBev := some { bev with input := rest } }
            match hdr with
            | h0 :: h1 :: h2 :: h3 :: more =>
                if isdigit h0 && isdigit h1 && h2 == 32 then
                  proxyReadStatus oob (oob bev.input) h0 h1 (h3 :: more)
                else proxyError evRead
            | _ => proxyError evRead

/-- The bufferevent has read `bytes` from the Gemini server. -/
def upstreamRead (oob : Bytes → Bytes) (bytes : Bytes) : CltM Unit := do
  let x ← Prog.get
  match x.clt.cltBev with
  | none => pure ()
  | some bev => do
      setClt fun c => { c with cltBev := some { bev with input := bev.input ++ bytes } }
      proxyRead oob

end Galileo
