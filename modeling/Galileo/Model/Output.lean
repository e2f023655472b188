import Galileo.Model.State

/-!
# Writing to the web server (`fcgi.c`, first and last part)

Everything a request says goes through `dowrite`, which wraps up to 65535 bytes in a
`FCGI_STDOUT` record; `end_request` flushes the template, queues `FCGI_END_REQUEST` and takes the
client off the connection. A write that fails makes `dowrite` and `end_request` call `fcgi_error`,
which tears the whole connection down, and *then* return `-1`.
-/

set_option autoImplicit false

namespace Galileo

open Lib Lib.FastCgi

def fcgiMaxContentSize : Nat := 65535

/-- `bufferevent_write(fcgi->fcg_bev, data, len)`. -/
def buffereventWrite (data : Bytes) : Prog Fcgi Unit := fun f =>
  match f.writes with
  | false :: ws => (none, { f with writes := ws })
  | true :: ws => (some (), { f with writes := ws, output := f.output ++ data })
  | [] => (some (), { f with output := f.output ++ data })

/-- `fcgi_error`: every client is removed and freed, then the connection. -/
def fcgiError (f : Fcgi) : Fcgi := { f with fcgClients := [], input := [], closed := true }

/-! ## `FCGI_STDOUT` -/

def dowrite (id : UInt32) (data : Bytes) : Prog Fcgi Unit := fun f =>
  let hdr : Bytes := [1, stdout, byte1 id.toNat, byte0 id.toNat, byte1 data.length,
    byte0 data.length, 0, 0]
  match (do buffereventWrite hdr; buffereventWrite data : Prog Fcgi Unit) f with
  | (none, f) => (none, fcgiError f)
  | (some _, f) => (some (), f.observe (.queued stdout id.toUInt16 data))

/-- The loop of `clt_write`; every round writes at least one byte. -/
def cltWriteLoop (id : UInt32) : Nat → Bytes → Prog Fcgi Unit
  | 0, _ => pure ()
  | n + 1, data =>
      if data.isEmpty then pure ()
      else do
        dowrite id (data.take fcgiMaxContentSize)
        cltWriteLoop id n (data.drop fcgiMaxContentSize)

def cltWrite (id : UInt32) (data : Bytes) : Prog Fcgi Unit := cltWriteLoop id data.length data

/-! ## Through the client's template -/

def onTp {α : Type} (m : TpM Fcgi α) : CltM α :=
  Prog.zoom (fun x => (x.clt.cltTp, x.fcgi))
    (fun t x => { x with fcgi := t.2, clt := { x.clt with cltTp := t.1 } }) m

/-- A run of template statements for the client. -/
def emit (ps : List Piece) : CltM Unit := do
  let x ← Prog.get
  onTp (render (cltWrite x.clt.cltId) ps)

/-- `clt_flush`. -/
def cltFlush : CltM Unit := do
  let x ← Prog.get
  onTp (templateFlush (cltWrite x.clt.cltId))

/-- `clt_write_bufferevent(clt, clt->clt_bev)`. -/
def cltWriteBufferevent : CltM Unit := do
  let x ← Prog.get
  match x.clt.cltBev with
  | none => pure ()
  | some bev =>
      onFcgi (cltWrite x.clt.cltId bev.input)
      setClt fun c => { c with cltBev := some { bev with input := [] } }

/-! ## `FCGI_END_REQUEST` -/

def endReqBody (appStatus protoStatus : UInt8) : Bytes := [0, 0, 0, appStatus, protoStatus, 0, 0, 0]

def fcgiSendEndReq (id : Nat) (appStatus protoStatus : UInt8) : Prog Fcgi Unit := do
  buffereventWrite [1, endRequestType, byte1 id, byte0 id, 0, 8, 0, 0]
  buffereventWrite (endReqBody appStatus protoStatus)
  Prog.modify fun f =>
    f.observe (.queued endRequestType (UInt16.ofNat id) (endReqBody appStatus protoStatus))

/-- `end_request`. `proxy_client_free` releases what the client holds, so after `SPLAY_REMOVE`
nothing of it is left. -/
def endRequest (status protoStatus : UInt8) : CltM Unit := do
  cltFlush
  let x ← Prog.get
  match fcgiSendEndReq x.clt.cltId.toNat status protoStatus x.fcgi with
  | (none, f) => do
      Prog.modify fun x => { x with fcgi := fcgiError f }
      Prog.fail
  | (some _, f) =>
      Prog.modify fun x =>
        let f := (f.remove x.clt.cltId).observe (.freed x.clt.cltId.toUInt16 x.clt.serial)
        { x with fcgi := if f.fcgKeepConn then f else { f with fcgDone := true } }

def fcgiEndRequest (status : UInt8) : CltM Unit := endRequest status requestComplete

def fcgiAbortRequest : CltM Unit := endRequest 1 overloaded

end Galileo
