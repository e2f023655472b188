import Galileo.Lib.Access
import Galileo.Model.System

/-!
# The callbacks, with their accesses

`fcgi_error` frees a connection with all its clients, at the bottom of call chains that are six
deep; `end_request` frees one client. Here every function that may be on its way back from there is
written once more, statement by statement, with the objects it accesses: the connection (its fields
and buffers) and the client (its fields, its template and its `bufferevent`). An access to an object
that is gone sets `wild`.

The functions have the names they have in the model without accesses, in the namespace `Heap`, and
use its functions for everything that is computed from what was read. The bytes that are written to
the web server are always in a buffer of the client.

Every event comes with the results of the calls of `bufferevent_write` that are made while it is
handled.
-/

set_option autoImplicit false

namespace Galileo

open Lib Lib.FastCgi Lib.Watched

/-- Code that runs for one client, with its accesses. -/
abbrev HeapM := Prog (Watched Ctx)

/-- Code that runs for a connection. A failure is the end of the callback. -/
abbrev ConnM := Prog (Watched Fcgi)

namespace Heap

/-- The connection of the client has not been freed. -/
def connAlive (x : Ctx) : Bool := !x.fcgi.closed

/-- Nor has the client. -/
def cltAlive (x : Ctx) : Bool := connAlive x && (x.fcgi.find x.clt.cltId).isSome

def useConn {α : Type} (m : Prog Fcgi α) : HeapM α := use connAlive (onFcgi m)

def useClt {α : Type} (m : CltM α) : HeapM α := use cltAlive m

/-! ## Writing to the web server -/

def dowrite (data : Bytes) : HeapM Unit := do
  let x ← useClt Prog.get
  let id := x.clt.cltId
  let hdr : Bytes := [1, stdout, byte1 id.toNat, byte0 id.toNat, byte1 data.length,
    byte0 data.length, 0, 0]
  orFail (do
      useConn (buffereventWrite hdr)
      useClt (pure ())
      useConn (buffereventWrite data))
    (useConn (Prog.modify fcgiError))
  free (onFcgi (Prog.modify fun f => f.observe (.queued stdout id.toUInt16 data)))

def cltWriteLoop : Nat → Bytes → HeapM Unit
  | 0, _ => pure ()
  | n + 1, data =>
      if data.isEmpty then pure ()
      else do
        dowrite (data.take fcgiMaxContentSize)
        cltWriteLoop n (data.drop fcgiMaxContentSize)

def cltWrite (data : Bytes) : HeapM Unit := cltWriteLoop data.length data

def templateFlush : HeapM Unit := do
  let x ← useClt Prog.get
  if x.clt.cltTp.tpBuf.isEmpty then pure ()
  else do
    cltWrite x.clt.cltTp.tpBuf
    useClt (setClt fun c => { c with cltTp := c.cltTp.clear })

def tpWriteLoop : Nat → Bytes → HeapM Unit
  | 0, _ => pure ()
  | n + 1, str =>
      if str.isEmpty then pure ()
      else do
        let x ← useClt Prog.get
        if x.clt.cltTp.avail = 0 then templateFlush
        let x ← useClt Prog.get
        useClt (setClt fun c => { c with cltTp := c.cltTp.copy str })
        tpWriteLoop n (str.drop x.clt.cltTp.avail)

def tpWrite (str : Bytes) : HeapM Unit := tpWriteLoop str.length str

def tpHtmlescape (str : Bytes) : HeapM Unit := Prog.each (fun b => tpWrite (htmlescapeByte b)) str

def tpUrlescape : Bytes → HeapM Unit
  | [] => pure ()
  | b :: str =>
      if urlUnsafe b then
        if (urlescapeTmp b).length ≥ 4 then pure ()
        else do
          tpWrite (urlescapeTmp b)
          tpUrlescape str
      else do
        tpWrite [b]
        tpUrlescape str

/-- One statement of a template: its argument is evaluated for the client, then it is written. -/
def emitPiece (p : Piece) : HeapM Unit := do
  useClt (pure ())
  match p with
  | .raw s => tpWrite s
  | .html s => tpHtmlescape s
  | .url s => tpUrlescape s

def emit (ps : List Piece) : HeapM Unit := Prog.each emitPiece ps

/-- `clt_write_bufferevent(clt, clt->clt_bev)`: the buffer is drained in any case. -/
def cltWriteBufferevent : HeapM Unit := do
  let x ← useClt Prog.get
  match x.clt.cltBev with
  | none => pure ()
  | some bev =>
      let drain := useClt (setClt fun c => { c with cltBev := some { bev with input := [] } })
      orFail (cltWrite bev.input) drain
      drain

/-- `end_request`: `SPLAY_REMOVE` and `proxy_client_free` end the client. -/
def endRequest (status protoStatus : UInt8) : HeapM Unit := do
  templateFlush
  let x ← useClt Prog.get
  orFail (useConn (fcgiSendEndReq x.clt.cltId.toNat status protoStatus))
    (useConn (Prog.modify fcgiError))
  useClt (onFcgi (Prog.modify fun f =>
    (f.remove x.clt.cltId).observe (.freed x.clt.cltId.toUInt16 x.clt.serial)))
  useConn (Prog.modify fun f => if f.fcgKeepConn then f else { f with fcgDone := true })

def fcgiEndRequest (status : UInt8) : HeapM Unit := endRequest status requestComplete

def fcgiAbortRequest : HeapM Unit := endRequest 1 overloaded

/-! ## Serving a request -/

def failWith (status : Nat) (reason : String) : HeapM Unit := do
  emit (proxyStartReply status (some (lit "text/html")))
  let x ← useClt Prog.get
  emit (tpError x.clt (-1) (lit reason))
  fcgiEndRequest 1

def startResolver : HeapM Unit := do
  let x ← useClt Prog.get
  match x.fcgi.asr with
  | .noQuery :: rest => do
      free (onFcgi (Prog.modify fun f => { f with asr := rest }))
      fcgiAbortRequest
  | .noRun :: rest => do
      free (onFcgi (Prog.modify fun f => { f with asr := rest }))
      useClt (setClt fun c => { c with cltEvasr := false })
      fcgiAbortRequest
  | .running :: rest => do
      free (onFcgi (Prog.modify fun f => { f with asr := rest }))
      useClt (setClt fun c => { c with cltEvasr := true })
  | [] => useClt (setClt fun c => { c with cltEvasr := true })

def proxyStartRequest (env : Env) : HeapM Unit := do
  free (Prog.modify fun x => { x with fcgi := x.fcgi.observe (.started x.clt.serial) })
  let x ← useClt Prog.get
  match x.clt.cltPathInfo with
  | none => failWith 501 "internal server error"
  | some path =>
      useClt (setClt fun c => { c with cltPc := proxyMatch env c.cltServerName })
      match proxyMatch env x.clt.cltServerName with
      | none => failWith 501 "unknown server"
      | some _ =>
          if x.clt.cltBodylen != 0 && x.clt.cltBody.isNone then failWith 400 "bad request"
          else match x.clt.cltBody with
            | some body => do
                let prfx := x.clt.cltScriptName.getD nullString
                emit (proxyStartReply 302 (some (prfx ++ path.tail ++ lit "?" ++ body)))
                fcgiEndRequest 1
            | none => startResolver

def proxyConnect (net : NetEnv) : HeapM Unit := do
  let x ← useClt Prog.get
  let r := connectAgain net x.clt.cltFd net.sockets x.clt.cltP
  useClt (setClt fun c => { c with cltFd := r.2.1, cltP := r.2.2 })
  match r.1, x.clt.cltPc with
  | .wait, _ => useClt (setClt fun c => { c with cltEvconnLive := true })
  | _, none => free crash
  | .err, some _ => failWith 501 "Can't connect"
  | .done, some pc => do
      useClt (setClt fun c => { c with cltEvconnLive := false, cltP := [] })
      if !net.bevNew then failWith 501 "Can't connect"
      else do
        useClt (setClt fun c => { c with cltBev := some ⟨[], []⟩ })
        if !pc.noTls && !net.tls then failWith 501 "Can't connect"
        else if !net.queued then failWith 501 "Can't connect"
        else useClt (setClt fun c => { c with cltBev := some ⟨[], geminiRequest pc c⟩ })

def proxyResolved (res : Option (List Addrinfo)) (net : NetEnv) : HeapM Unit := do
  useClt (setClt fun c => { c with cltEvasr := false })
  let x ← useClt Prog.get
  match res, x.clt.cltPc with
  | none, none => free crash
  | none, some _ => failWith 501 "Can't resolve host"
  | some addrs, _ => do
      useClt (setClt fun c => { c with cltP := addrs })
      proxyConnect net

def proxyError (err : Nat) : HeapM Unit := do
  let status : UInt8 := if err &&& evbufferEof = 0 then 1 else 0
  let x ← useClt Prog.get
  if !x.clt.cltHeadersdone then do
    emit (proxyStartReply 501 (some (lit "text/html")))
    emit (tpError x.clt (-1) (lit "Proxy error"))
  else if status = 0 then do
    useClt (setClt fun c =>
      { c with cltTranslate := { c.cltTranslate with pre := false, list := false, nav := false } })
    emit (closePieces x.clt)
  fcgiEndRequest status

def translateLoop (oob : Bytes → Bytes) : Nat → HeapM Unit
  | 0 => pure ()
  | n + 1 => do
      let x ← useClt Prog.get
      match x.clt.cltBev with
      | none => pure ()
      | some bev =>
          match readlnCrlf bev.input with
          | none => pure ()
          | some (line, rest) =>
              useClt (setClt fun c => { c with cltBev := some { bev with input := rest } })
              match gemtextTranslateLine x.clt (cstrPast (oob bev.input) line).1
                  (cstrPast (oob bev.input) line).2 with
              | none => free crash
              | some (ps, tr) =>
                  useClt (setClt fun c => { c with cltTranslate := tr })
                  emit ps
                  translateLoop oob n

def proxyTranslateGemtext (oob : Bytes → Bytes) : HeapM Unit := do
  let x ← useClt Prog.get
  match x.clt.cltBev with
  | none => pure ()
  | some bev => translateLoop oob bev.input.length

def proxyReadBody (oob : Bytes → Bytes) : HeapM Unit := do
  let x ← useClt Prog.get
  if x.clt.cltTranslate.any then proxyTranslateGemtext oob
  else cltWriteBufferevent

def proxyReadSuccess (oob : Bytes → Bytes) (mime : Bytes) : HeapM Unit := do
  let x ← useClt Prog.get
  let r := parseMime x.clt.cltTranslate mime
  useClt (setClt fun c => { c with cltTranslate := r.1 })
  match r.2 with
  | none => failWith 501 "Bad response"
  | some lang => do
      let ctype := if r.1.any then lit "text/html;charset=utf-8" else mime
      emit [.raw (lit "Content-Type: " ++ ctype ++ lit "\r\n\r\n")]
      useClt (setClt fun c => { c with cltHeadersdone := true })
      if r.1.any then emit (tpHead x.clt lang none) else templateFlush
      proxyReadBody oob

def upstreamFailure (code : Nat) (reason : Bytes) : HeapM Unit := do
  emit (proxyStartReply 501 (some (lit "text/html")))
  let x ← useClt Prog.get
  emit (tpError x.clt code reason)
  fcgiEndRequest 1

def proxyReadStatus (oob : Bytes → Bytes) (behind : Bytes) (h0 h1 : UInt8) (rest : Bytes) :
    HeapM Unit := do
  let x ← useClt Prog.get
  let code := (h0 - 48).toNat * 10 + (h1 - 48).toNat
  let reason := cstrPast behind rest
  if h0 == 49 then do
    emit (proxyStartReply 200 (some (lit "text/html")))
    emit (tpInputpage x.clt reason.1)
    fcgiEndRequest 0
  else if h0 == 50 then proxyReadSuccess oob (reason.1.dropWhile isblank)
  else if h0 == 51 then
    match proxyResurl x.clt reason.1 reason.2 1025 with
    | none => free crash
    | some (some buf) => do
        emit (proxyStartReply 302 (some buf))
        fcgiEndRequest 0
    | some none => upstreamFailure code reason.1
  else upstreamFailure code reason.1

def proxyRead (oob : Bytes → Bytes) : HeapM Unit := do
  let x ← useClt Prog.get
  match x.clt.cltBev with
  | none => pure ()
  | some bev =>
      if x.clt.cltHeadersdone then proxyReadBody oob
      else match readlnCrlfStrict bev.input with
        | none => if bev.input.length ≥ 1026 then proxyError evRead else pure ()
        | some (hdr, rest) => do
            useClt (setClt fun c => { c with cltBev := some { bev with input := rest } })
            match hdr with
            | h0 :: h1 :: h2 :: h3 :: more =>
                if isdigit h0 && isdigit h1 && h2 == 32 then
                  proxyReadStatus oob (oob bev.input) h0 h1 (h3 :: more)
                else proxyError evRead
            | _ => proxyError evRead

def upstreamRead (oob : Bytes → Bytes) (bytes : Bytes) : HeapM Unit := do
  let x ← useClt Prog.get
  match x.clt.cltBev with
  | none => pure ()
  | some bev => do
      useClt (setClt fun c => { c with cltBev := some { bev with input := bev.input ++ bytes } })
      proxyRead oob

/-! ## Reading from the web server -/

def fcgiParseForm (env : Env) : HeapM Unit := do
  let x ← useClt Prog.get
  if x.fcgi.fcgToread = 0 then do
    useClt (setClt fun c => { c with cltBodydone := true })
    proxyStartRequest env
  else do
    let len := min 2047 (sizeT x.fcgi.fcgToread)
    useConn (Prog.modify fun f =>
      { f with fcgToread := f.fcgToread - len, input := (evbufferRemove len f.input).2 })
    useClt (setClt (formChunk (cstr (evbufferRemove len x.fcgi.input).1)))

/-- Code that accesses the connection. -/
def useFcgi {α : Type} (m : Prog Fcgi α) : ConnM α := use (fun f => !f.closed) m

/-- `fcgi_error(bev, ..., d); return;`. -/
def error : ConnM Unit := do
  useFcgi (Prog.modify fcgiError)
  Prog.fail

/-- A call for the client with the key `id`. -/
def withClient (id : UInt32) (m : HeapM Unit) : ConnM Unit := fun h =>
  match h.state.find id with
  | none => (none, h)
  | some c =>
      let r := m ⟨⟨h.state, c⟩, h.wild⟩
      (r.1, ⟨r.2.state.fcgi.store r.2.state.clt, r.2.wild⟩)

/-- "Prepare for the next record." -/
def nextRecord : ConnM Unit := useFcgi (Prog.modify Galileo.nextRecord)

def skipContent : ConnM Unit := useFcgi (Prog.modify Galileo.skipContent)

def readHeader : ConnM Unit := do
  let f ← useFcgi Prog.get
  match f.input with
  | version :: type :: i1 :: i0 :: l1 :: l0 :: padding :: _ :: rest =>
      if version ≠ 1 then error
      else useFcgi (Prog.modify fun f => { f with
        fcgWant := .body
        input := rest
        fcgToread := (cat l0 l1 : Nat)
        fcgPadding := padding.toNat
        fcgType := type
        fcgRecId := UInt16.ofNat (cat i0 i1) })
  | _ => Prog.fail

def readBeginBody (role1 role0 flags : UInt8) : ConnM Unit := do
  let f ← useFcgi Prog.get
  if cat role0 role1 ≠ responder then do
    orFail (useFcgi (fcgiSendEndReq f.fcgRecId.toNat 1 unknownRole)) error
    nextRecord
  else if !f.fcgKeepConn then error
  else do
    useFcgi (Prog.modify fun f => { f with fcgKeepConn := flags &&& keepConn != 0 })
    match f.find f.fcgRecId.toUInt32 with
    | some _ => nextRecord
    | none => do
        useFcgi (Prog.modify fun f =>
          let f := f.insert (Client.new f.fcgRecId.toUInt32 f.nextSerial)
          { f with nextSerial := f.nextSerial + 1 }.observe (.accepted f.fcgRecId f.nextSerial))
        nextRecord

def readBegin : ConnM Unit := do
  let f ← useFcgi Prog.get
  if f.fcgToread ≠ 8 then error
  else match f.input with
    | role1 :: role0 :: flags :: _ :: _ :: _ :: _ :: _ :: rest => do
        useFcgi (Prog.modify fun f => { f with input := rest })
        readBeginBody role1 role0 flags
    | _ => Prog.fail

def readParams (env : Env) (stale : Bytes) : ConnM Unit := do
  let f ← useFcgi Prog.get
  match f.find f.fcgRecId.toUInt32 with
  | none => do
      skipContent
      nextRecord
  | some clt =>
      if f.fcgToread = 0 then
        if clt.cltMethod = .get then do
          withClient f.fcgRecId.toUInt32 (proxyStartRequest env)
          nextRecord
        else nextRecord
      else
        let r := fcgiParseParams env ⟨f.fcgToread, f.input ++ stale, clt⟩
        if r.1 then do
          let used := (f.input ++ stale).length - r.2.src.length
          useFcgi (Prog.modify fun f =>
            { f with fcgToread := r.2.toread, input := f.input.drop used }.store r.2.clt)
          nextRecord
        else error

def readStdin (env : Env) : ConnM Unit := do
  let f ← useFcgi Prog.get
  match f.find f.fcgRecId.toUInt32 with
  | none => do
      skipContent
      nextRecord
  | some clt =>
      if clt.cltMethod ≠ .post then do
        skipContent
        nextRecord
      else do
        withClient f.fcgRecId.toUInt32 (fcgiParseForm env)
        nextRecord

def readAbort : ConnM Unit := do
  let f ← useFcgi Prog.get
  match f.find f.fcgRecId.toUInt32 with
  | none => do
      skipContent
      nextRecord
  | some _ => do
      withClient f.fcgRecId.toUInt32 (fcgiEndRequest 1)
      nextRecord

def readBody (env : Env) (stale : Bytes) : ConnM Unit := do
  free (Prog.modify fun f =>
    f.observe (.dispatched f.fcgType f.fcgRecId (f.input.take (sizeT f.fcgToread))))
  let f ← useFcgi Prog.get
  if f.fcgType = beginRequest then readBegin
  else if f.fcgType = params then readParams env stale
  else if f.fcgType = stdin then readStdin env
  else if f.fcgType = abortRequest then readAbort
  else do
    skipContent
    nextRecord

/-- One turn of the loop of `fcgi_read`, up to the test at the top of the next one. -/
def readStep (env : Env) (stale : Bytes) : ConnM Unit := do
  let f ← useFcgi Prog.get
  if f.input.length < sizeT f.fcgToread then Prog.fail
  else do
    match f.fcgWant with
    | .header => readHeader
    | .body => readBody env stale
    useFcgi (pure ())

def fcgiWrite : ConnM Unit := do
  let f ← useFcgi Prog.get
  if f.fcgDone && f.output.length - f.sent == 0 then error else pure ()

/-! ## Events -/

def callback (id : UInt16) (waiting : Client → Bool) (m : HeapM Unit) : ConnM Unit := fun h =>
  match h.state.find id.toUInt32 with
  | none => (some (), h)
  | some c => if waiting c then withClient id.toUInt32 m h else (some (), h)

/-- What one event does to an open connection. -/
def handle (env : Env) : Event → ConnM Unit
  | .arrive bytes => free (Prog.modify fun f => f.arrive bytes)
  | .read stale => readStep env stale
  | .resolved id res net => callback id Client.started (proxyResolved res net)
  | .connect id net => callback id Client.started (proxyConnect net)
  | .upstream id oob bytes => callback id Client.connected (upstreamRead oob bytes)
  | .upstreamError id err => callback id Client.connected (proxyError err)
  | .drained n => do
      free (Prog.modify fun f => { f with sent := min (f.sent + n) f.output.length })
      fcgiWrite
  | .error => error

/-- An event, and the results of the calls of `bufferevent_write` while it is handled. -/
structure Occurrence where
  event : Event
  writes : List Bool

/-- Nothing happens on a connection that is gone. -/
def step (env : Env) (h : Watched Fcgi) (o : Occurrence) : Watched Fcgi :=
  if h.state.closed then h
  else (handle env o.event { h with state := { h.state with writes := o.writes } }).2

def run (env : Env) (h : Watched Fcgi) (os : List Occurrence) : Watched Fcgi :=
  Run.run (step env) h os

end Heap

end Galileo
