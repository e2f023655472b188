import Galileo.Model.Params
import Galileo.Model.Proxy

/-!
# Reading from the web server (`fcgi.c`, `fcgi_read`)

The dispatcher. `fcgi_read` is called when bytes have arrived and loops: it waits until the input
buffer holds `fcg_toread` bytes, then takes either a header or the content of the record the last
header announced. `readStep` is one turn of that loop, `fcgiRead` the whole callback.
-/

set_option autoImplicit false

namespace Galileo

open Lib Lib.FastCgi

/-! ## `FCGI_STDIN` -/

/-- Cut a piece of the form's body at its first `&`, or else its first CR; whether there was one. -/
def cutForm (s : Bytes) : Bytes × Bool :=
  match strchr 38 s with
  | some rest => (s.take (s.length - rest.length), true)
  | none =>
      match strchr 13 s with
      | some rest => (s.take (s.length - rest.length), true)
      | none => (s, false)

/-- What `fcgi_parse_form` makes of the C string `tmp` holds. -/
def formChunk (tmp : Bytes) (c : Client) : Client :=
  if c.cltBodydone then c
  else if c.cltBodylen > geminiMaxlen then { c with cltBody := none }
  else match c.cltBody with
    | some body =>
        { c with
          cltBody := some (body ++ (cutForm tmp).1)
          cltBodylen := c.cltBodylen + (cutForm tmp).1.length
          cltBodydone := (cutForm tmp).2 }
    | none =>
        if c.cltBodylen != 0 then c
        else match strstr (lit "q=") tmp with
          | none => c
          | some s =>
              { c with
                cltBody := some (cutForm (s.drop 2)).1
                cltBodylen := (cutForm (s.drop 2)).1.length
                cltBodydone := (cutForm (s.drop 2)).2 }

/-- `fcgi_parse_form`. At most `sizeof(tmp) - 1` bytes of the record are taken. -/
def fcgiParseForm (env : Env) : CltM Unit := do
  let x ← Prog.get
  if x.fcgi.fcgToread = 0 then do
    setClt fun c => { c with cltBodydone := true }
    proxyStartRequest env
  else do
    let len := min 2047 (sizeT x.fcgi.fcgToread)
    onFcgi (Prog.modify fun f =>
      { f with fcgToread := f.fcgToread - len, input := (evbufferRemove len f.input).2 })
    setClt (formChunk (cstr (evbufferRemove len x.fcgi.input).1))

/-! ## One turn of the loop -/

/-- How a turn of the loop ends: `continue` (or the end of the loop's body), or `return`. -/
inductive Flow where
  | next (f : Fcgi)
  | ret (f : Fcgi)

def Flow.fcgi : Flow → Fcgi
  | .next f => f
  | .ret f => f

/-- "Prepare for the next record." -/
def nextRecord (f : Fcgi) : Fcgi :=
  { f with input := evbufferDrain f.fcgPadding f.input, fcgWant := .header, fcgToread := 8 }

/-- Leave the content of the record in the dust. -/
def skipContent (f : Fcgi) : Fcgi :=
  { f with input := evbufferDrain (sizeT f.fcgToread) f.input }

/-- The result of a call that returns `-1` when the connection is gone. -/
def afterCall (r : Option Unit × Fcgi) : Flow :=
  match r with
  | (none, f) => .ret f
  | (some _, f) => .next (nextRecord f)

/-- `FCGI_RECORD_HEADER`. -/
def readHeader (f : Fcgi) : Flow :=
  match f.input with
  | version :: type :: i1 :: i0 :: l1 :: l0 :: padding :: _ :: rest =>
      if version ≠ 1 then .ret (fcgiError f)
      else .next { f with
        fcgWant := .body
        input := rest
        fcgToread := (cat l0 l1 : Nat)
        fcgPadding := padding.toNat
        fcgType := type
        fcgRecId := UInt16.ofNat (cat i0 i1) }
  | _ => .ret f

/-- `case FCGI_BEGIN_REQUEST` when the body of the record has been taken off the input. -/
def readBeginBody (role1 role0 flags : UInt8) (f : Fcgi) : Flow :=
  if cat role0 role1 ≠ responder then
    match fcgiSendEndReq f.fcgRecId.toNat 1 unknownRole f with
    | (none, f) => .ret (fcgiError f)
    | (some _, f) => .next (nextRecord f)
  else if !f.fcgKeepConn then .ret (fcgiError f)
  else
    let clt := f.find f.fcgRecId.toUInt32
    let f := { f with fcgKeepConn := flags &&& keepConn != 0 }
    match clt with
    | some _ => .next (nextRecord f)
    | none =>
        let f := f.insert (Client.new f.fcgRecId.toUInt32 f.nextSerial)
        .next (nextRecord
          ({ f with nextSerial := f.nextSerial + 1 }.observe
            (.accepted f.fcgRecId f.nextSerial)))

/-- `case FCGI_BEGIN_REQUEST`. -/
def readBegin (f : Fcgi) : Flow :=
  if f.fcgToread ≠ 8 then .ret (fcgiError f)
  else match f.input with
    | role1 :: role0 :: flags :: _ :: _ :: _ :: _ :: _ :: rest =>
        readBeginBody role1 role0 flags { f with input := rest }
    | _ => .ret f

/-- `case FCGI_PARAMS`. -/
def readParams (env : Env) (stale : Bytes) (f : Fcgi) : Flow :=
  match f.find f.fcgRecId.toUInt32 with
  | none => .next (nextRecord (skipContent f))
  | some clt =>
      if f.fcgToread = 0 then
        if clt.cltMethod = .get then
          afterCall (withClient f.fcgRecId.toUInt32 (proxyStartRequest env) f)
        else .next (nextRecord f)
      else
        let r := fcgiParseParams env ⟨f.fcgToread, f.input ++ stale, clt⟩
        if r.1 then
          let used := (f.input ++ stale).length - r.2.src.length
          .next (nextRecord
            ({ f with fcgToread := r.2.toread, input := f.input.drop used }.store r.2.clt))
        else .ret (fcgiError f)

/-- `case FCGI_STDIN`. -/
def readStdin (env : Env) (f : Fcgi) : Flow :=
  match f.find f.fcgRecId.toUInt32 with
  | none => .next (nextRecord (skipContent f))
  | some clt =>
      if clt.cltMethod ≠ .post then .next (nextRecord (skipContent f))
      else afterCall (withClient f.fcgRecId.toUInt32 (fcgiParseForm env) f)

/-- `case FCGI_ABORT_REQUEST`. -/
def readAbort (f : Fcgi) : Flow :=
  match f.find f.fcgRecId.toUInt32 with
  | none => .next (nextRecord (skipContent f))
  | some _ => afterCall (withClient f.fcgRecId.toUInt32 (fcgiEndRequest 1) f)

/-- `FCGI_RECORD_BODY`. -/
def readBody (env : Env) (stale : Bytes) (f : Fcgi) : Flow :=
  let f := f.observe (.dispatched f.fcgType f.fcgRecId (f.input.take (sizeT f.fcgToread)))
  if f.fcgType = beginRequest then readBegin f
  else if f.fcgType = params then readParams env stale f
  else if f.fcgType = stdin then readStdin env f
  else if f.fcgType = abortRequest then readAbort f
  else .next (nextRecord (skipContent f))

/-- One turn of the loop of `fcgi_read`. `stale` is what a local variable holds that is read
before it was written. -/
def readStep (env : Env) (stale : Bytes) (f : Fcgi) : Flow :=
  if f.closed || f.input.length < sizeT f.fcgToread then .ret f
  else match f.fcgWant with
    | .header => readHeader f
    | .body => readBody env stale f

/-! ## The callbacks -/

def readLoop (env : Env) (stale : Bytes) : Nat → Fcgi → Fcgi
  | 0, f => f
  | n + 1, f =>
      match readStep env stale f with
      | .ret f => f
      | .next f => readLoop env stale n f

/-- `fcgi_read`. A header takes eight bytes, and a header is read at least every other turn. -/
def fcgiRead (env : Env) (stale : Bytes) (f : Fcgi) : Fcgi :=
  readLoop env stale (2 * f.input.length + 2) f

/-- Bytes arrive from the web server. -/
def Fcgi.arrive (f : Fcgi) (bytes : Bytes) : Fcgi :=
  if f.closed then f else { f with input := f.input ++ bytes }

/-- `fcgi_write`. -/
def fcgiWrite (f : Fcgi) : Fcgi :=
  if f.fcgDone && f.output.length - f.sent == 0 then fcgiError f else f

end Galileo
