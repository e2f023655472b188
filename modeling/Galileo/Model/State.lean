import Galileo.Lib.FastCgi
import Galileo.Model.Template

/-!
# The data model (`galileo.h`)

One FastCGI connection (`Fcgi`), the requests multiplexed on it (`Client`) and the configuration
they are served under (`Env`), field by field after `galileo.h`. Three kinds of things are in the
records that are not in the structs:

* the **event buffers** of the connection's `bufferevent`, which libevent keeps: `input` is what
  has arrived and not been taken, `output` is everything ever queued and `sent` how much of it the
  socket has taken, so that `EVBUFFER_LENGTH(out)` is `output.length - sent`;
* what the **system answers** to the calls that may fail: `writes` for the coming
  `bufferevent_write` calls, `asr` for the coming resolver calls. A list that has run out answers
  with success. Memory allocation never fails;
* **ghost** fields nothing reads: `trace` records what the code does in the order it does it, and
  a client's `serial` says which accepted request it is.

Fields that only hold what is to be released later (`clt_addrinfo`, `clt_ctx`, the event
structures) have no reader here and are left out.
-/

set_option autoImplicit false

namespace Galileo

open Lib

/-! ## Configuration -/

/-- `struct proxy_config`, with `flags` as its four bits. -/
structure ProxyConfig where
  host : Bytes
  stylesheet : Bytes
  proxyAddr : Bytes
  proxyName : Bytes
  proxyPort : Bytes
  noTls : Bool
  noNavbar : Bool
  noFooter : Bool
  noImgprv : Bool
deriving DecidableEq

/-- `struct galileo`, as far as a request reads it, and the two limits the parameter parser takes
from the platform's `limits.h`. -/
structure Env where
  scProxies : List ProxyConfig
  hostNameMax : Nat
  pathMax : Nat

/-! ## Requests -/

/-- `METHOD_*`. -/
inductive Method where
  | unknown
  | get
  | post
deriving DecidableEq

/-- `clt_translate`, bit by bit (`TR_*`). -/
structure Translate where
  enabled : Bool
  pre : Bool
  list : Bool
  nav : Bool
deriving DecidableEq

/-- `if (clt->clt_translate)`. -/
def Translate.any (t : Translate) : Bool := t.enabled || t.pre || t.list || t.nav

def Translate.zero : Translate := ⟨false, false, false, false⟩

/-- One entry of a resolver's answer. -/
structure Addrinfo where
  aiAddr : Bytes
deriving DecidableEq

/-- The upstream `bufferevent`: bytes read and not taken, bytes to be written. -/
structure Bufferevent where
  input : Bytes
  output : Bytes
deriving DecidableEq

def geminiMaxlen : Nat := 1024 + 1

/-- `sizeof(clt->clt_buf)`. -/
def cltBufSize : Nat := 1024

/-- `struct client`. `cltP` is the list `clt_p` points into (`[]` is `NULL`), `cltEvasr` says
whether `clt_evasr` is set. -/
structure Client where
  cltId : UInt32
  cltFd : Int
  cltServerName : Option Bytes
  cltScriptName : Option Bytes
  cltPathInfo : Option Bytes
  cltQuery : Option Bytes
  cltMethod : Method
  cltBodydone : Bool
  cltBody : Option Bytes
  cltBodylen : Nat
  cltPc : Option ProxyConfig
  cltEvasr : Bool
  cltP : List Addrinfo
  cltEvconnLive : Bool
  cltBev : Option Bufferevent
  cltHeadersdone : Bool
  cltTp : Template
  cltTranslate : Translate
  serial : Nat
deriving DecidableEq

/-- A client as `fcgi_read` leaves it when it has accepted a `FCGI_BEGIN_REQUEST`. -/
def Client.new (id : UInt32) (serial : Nat) : Client where
  cltId := id
  cltFd := -1
  cltServerName := none
  cltScriptName := none
  cltPathInfo := none
  cltQuery := none
  cltMethod := .unknown
  cltBodydone := false
  cltBody := none
  cltBodylen := 0
  cltPc := none
  cltEvasr := false
  cltP := []
  cltEvconnLive := false
  cltBev := none
  cltHeadersdone := false
  cltTp := template cltBufSize (by decide)
  cltTranslate := .zero
  serial := serial

/-! ## Connections -/

/-- `fcg_want`. -/
inductive Want where
  | header
  | body
deriving DecidableEq

/-- What `getaddrinfo_async` and `event_asr_run` answer: a query in flight, no query, or a query
that could not be run. -/
inductive AsrAnswer where
  | running
  | noQuery
  | noRun
deriving DecidableEq

/-- What the code is seen to do: a record is dispatched, a request accepted, started, a record
queued for the web server, a request taken off the connection by `end_request`. -/
inductive Obs where
  | dispatched (type : UInt8) (id : UInt16) (content : Bytes)
  | accepted (id : UInt16) (serial : Nat)
  | started (serial : Nat)
  | queued (type : UInt8) (id : UInt16) (content : Bytes)
  | freed (id : UInt16) (serial : Nat)
deriving DecidableEq

/-- `struct fcgi`. `closed` is set by `fcgi_error`, which frees the connection: nothing happens on
it any more. -/
structure Fcgi where
  fcgClients : List Client
  fcgToread : Int
  fcgWant : Want
  fcgPadding : Nat
  fcgType : UInt8
  fcgRecId : UInt16
  fcgKeepConn : Bool
  fcgDone : Bool
  input : Bytes
  output : Bytes
  sent : Nat
  closed : Bool
  writes : List Bool
  asr : List AsrAnswer
  trace : List Obs
  nextSerial : Nat
deriving DecidableEq

/-- A connection as `fcgi_accept` leaves it. The keep-alive flag is assumed to be set until the
first `FCGI_BEGIN_REQUEST` says otherwise. -/
def Fcgi.new (writes : List Bool) (asr : List AsrAnswer) : Fcgi where
  fcgClients := []
  fcgToread := 8
  fcgWant := .header
  fcgPadding := 0
  fcgType := 0
  fcgRecId := 0
  fcgKeepConn := true
  fcgDone := false
  input := []
  output := []
  sent := 0
  closed := false
  writes := writes
  asr := asr
  trace := []
  nextSerial := 0

def Fcgi.observe (f : Fcgi) (o : Obs) : Fcgi := { f with trace := f.trace ++ [o] }

/-! ## The tree of clients

`SPLAY_GENERATE` with `fcgi_client_cmp`: a finite map keyed by the ids, as long as the comparison
is a total order on the ids in it. -/

/-- `(int)a->clt_id - b->clt_id`: the subtraction is done on `unsigned int`, and its result is
returned as an `int`. -/
def fcgiClientCmp (a b : UInt32) : Int := ((a.toNat : Int) - b.toNat).bmod (2 ^ 32)

/-- `SPLAY_FIND(client_tree, &fcgi->fcg_clients, q)`. -/
def Fcgi.find (f : Fcgi) (id : UInt32) : Option Client :=
  f.fcgClients.find? fun c => fcgiClientCmp id c.cltId == 0

/-- `SPLAY_INSERT`: a key that is already there is left alone. -/
def Fcgi.insert (f : Fcgi) (c : Client) : Fcgi :=
  if (f.find c.cltId).isSome then f else { f with fcgClients := c :: f.fcgClients }

/-- `SPLAY_REMOVE`. -/
def Fcgi.remove (f : Fcgi) (id : UInt32) : Fcgi :=
  { f with fcgClients := f.fcgClients.filter fun c => fcgiClientCmp id c.cltId != 0 }

/-- A write through a `struct client *`: the client with that key now has these fields. -/
def Fcgi.store (f : Fcgi) (c : Client) : Fcgi :=
  { f with
    fcgClients := f.fcgClients.map fun d => if fcgiClientCmp c.cltId d.cltId == 0 then c else d }

/-! ## Code that runs for one client -/

/-- A `struct client *` and the connection it is on. -/
structure Ctx where
  fcgi : Fcgi
  clt : Client

/-- Functions that are passed a client; failing is returning `-1`. -/
abbrev CltM := Prog Ctx

/-- Code that only uses `clt->clt_fcgi`. -/
def onFcgi {α : Type} (m : Prog Fcgi α) : CltM α :=
  Prog.zoom Ctx.fcgi (fun f x => { x with fcgi := f }) m

def setClt (g : Client → Client) : CltM Unit := Prog.modify fun x => { x with clt := g x.clt }

/-- Run code for the client with key `id`; afterwards its fields are where the tree has them. -/
def withClient {α : Type} (id : UInt32) (m : CltM α) (f : Fcgi) : Option α × Fcgi :=
  match f.find id with
  | none => (none, f)
  | some c =>
      let r := m ⟨f, c⟩
      (r.1, r.2.fcgi.store r.2.clt)

end Galileo
