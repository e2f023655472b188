import Galileo.Model.System

/-!
# Connecting, with the system on the other side

`proxy_connect` decides from a descriptor and one socket option. What these stand for is the
business of the system: here is the part of it that `proxy_connect` deals with, a socket that is
being connected, together with the connection whose request waits for it.

Every address the resolver found comes with what happens when it is tried. The socket of the request
is `link`; from it follows what `getsockopt` reports (`Link.soError`): nothing while the connection
is in progress, and nothing after an error that `connect` itself has returned. `place` is a ghost:
where `clt_p` points when `proxy_connect` has left its loop. Its head is the address that was tried
last, and the addresses behind that have not been tried.
-/

set_option autoImplicit false

namespace Galileo

open Lib

/-- What becomes of a call of `connect`: it returns 0, it returns an error other than
`EINPROGRESS`, or the connection is made later, with success (0) or an error. -/
inductive ConnectResult where
  | now
  | refused
  | later (err : Nat)
deriving DecidableEq

/-- One address, and what happens when it is tried. -/
structure Target where
  addr : Addrinfo
  /-- The descriptor `socket` returns for it, if it does not fail. -/
  socket : Option Nat
  result : ConnectResult
deriving DecidableEq

/-- The address takes the connection. -/
def Target.accepts (t : Target) : Bool :=
  t.socket.isSome && (t.result == .now || t.result == .later 0)

/-- The first address for which there is a socket, and the addresses behind it. -/
def firstSocket : List Target → Option (Target × List Target)
  | [] => none
  | t :: ts => if t.socket.isSome then some (t, ts) else firstSocket ts

/-- Whether the calls behind `done:` succeed. -/
structure Setup where
  bevNew : Bool
  tls : Bool
  queued : Bool

def Setup.fine : Setup := ⟨true, true, true⟩

/-- The socket of the request, as the system has it. -/
inductive Link where
  | absent
  /-- `connect` has returned an error. -/
  | refused
  /-- `connect` is in progress, and will end like this. -/
  | pending (err : Nat)
  | up
  | broken (err : Nat)
deriving DecidableEq

/-- `SO_ERROR`. -/
def Link.soError : Link → Nat
  | .broken err => err
  | _ => 0

/-- A connection in progress comes to its end. -/
def Link.completed : Link → Link
  | .pending err => if err = 0 then .up else .broken err
  | l => l

def ConnectResult.link : ConnectResult → Link
  | .now => .up
  | .refused => .refused
  | .later err => .pending err

/-- The socket `proxy_connect` leaves when it starts with these addresses. -/
def linkOf (ts : List Target) : Link :=
  match firstSocket ts with
  | none => .absent
  | some (t, _) => t.result.link

/-- What the system answers while `proxy_connect` looks for an address. -/
def dialNet (ts : List Target) (s : Setup) : NetEnv where
  soError := none
  sockets := ts.map Target.socket
  connected := linkOf ts == .up
  bevNew := s.bevNew
  tls := s.tls
  queued := s.queued

/-- What it answers when `proxy_connect` is called back; `opt` says whether `getsockopt` works. -/
def Link.net (l : Link) (opt : Bool) (s : Setup) : NetEnv where
  soError := if opt then some l.soError else none
  sockets := []
  connected := false
  bevNew := s.bevNew
  tls := s.tls
  queued := s.queued

structure Dial where
  fcgi : Fcgi
  link : Link
  place : List Addrinfo

inductive DialEvent where
  /-- The resolver answers. -/
  | resolved (ts : List Target) (s : Setup)
  /-- The connection in progress is made, or fails. -/
  | completed
  /-- `proxy_connect` is called with `EV_WRITE`. -/
  | writable (opt : Bool) (s : Setup)
  /-- `proxy_connect` is called with `EV_TIMEOUT`: five seconds have passed. -/
  | timeout (opt : Bool) (s : Setup)

/-- The client with the id `i`, while its connection is open. -/
def Dial.clt (i : UInt16) (d : Dial) : Option Client :=
  if d.fcgi.closed then none else d.fcgi.find i.toUInt32

/-- The call of `proxy_connect` an event leads to: for which client, and what the system answers.
`proxy_resolved` is called once for a query, and `proxy_connect` once for an `event_add`. -/
def DialEvent.call (i : UInt16) (d : Dial) : DialEvent → Option (Client × NetEnv)
  | .resolved ts s =>
      ((d.clt i).filter Client.cltEvasr).map fun c =>
        ({ c with cltEvasr := false, cltP := ts.map Target.addr }, dialNet ts s)
  | .completed => none
  | .writable opt s | .timeout opt s =>
      ((d.clt i).filter Client.cltEvconnLive).map fun c => (c, d.link.net opt s)

def dialStep (env : Env) (i : UInt16) (d : Dial) (e : DialEvent) : Dial :=
  match e, e.call i d with
  | .completed, _ => { d with link := d.link.completed }
  | _, none => d
  | .resolved ts _, some (c, net) =>
      { fcgi := step env d.fcgi (.resolved i (some (ts.map Target.addr)) net)
        link := linkOf ts
        place := (connectAgain net c.cltFd net.sockets c.cltP).2.2 }
  | .writable _ _, some (_, net) | .timeout _ _, some (_, net) =>
      { d with fcgi := step env d.fcgi (.connect i net) }

def dialRun (env : Env) (i : UInt16) (d : Dial) (es : List DialEvent) : Dial :=
  Run.run (dialStep env i) d es

end Galileo
