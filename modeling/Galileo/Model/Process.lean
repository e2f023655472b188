import Galileo.Lib.Loop
import Galileo.Lib.Tree
import Galileo.Model.System

/-!
# A proxy process (`proxy.c`, `config.c`, the first part of `fcgi.c`)

What is around the connections: the configuration the parent sends, the listening socket with its
two events, the tree of connections and the counter `fcgi_inflight`. A process is driven by
messages of the parent, by its listening socket and pause timer, and by everything that can happen
on one of its connections (`Event`).

* **Events of libevent.** `evsock` says whether `sc_evsock` is armed; it is persistent, so it stays
  armed until `event_del`. `evpause` says whether `sc_evpause` is pending, which is one-shot.
* **The tree of connections** is keyed by `fcg_id`, a counter of 32 bits. The comparator is zero
  exactly for equal ids; that it orders them takes ids less than `2 ^ 31` apart.
* **Ghosts.** An entry of `sc_proxies` has the `addr` it was allocated at, and no two ever have the
  same; `pcs` says at which address the `clt_pc` of a client points; `launched` says that
  `IMSG_CFG_DONE` was handled after the last reset; `gone` keeps the last state of every connection
  that was closed.
-/

set_option autoImplicit false

namespace Galileo

open Lib

/-! ## State -/

/-- `struct proxy`. -/
structure Proxy where
  addr : Nat
  prConf : ProxyConfig
deriving DecidableEq

/-- A `struct fcgi` in `sc_fcgi_socks`. `pcs` has the serial of a client and the entry its `clt_pc`
points to, the last assignment first. -/
structure Sock where
  fcgId : UInt32
  fcgi : Fcgi
  pcs : List (Nat × Nat)
deriving DecidableEq

/-- `struct galileo` in a proxy process, and the globals of `fcgi.c` and `proxy.c`. -/
structure Process where
  scProxies : List Proxy
  scFcgiSocks : Tree Sock Sock.fcgId
  scSockFd : Option Nat
  evsock : Bool
  evpause : Bool
  fcgiInflight : Int
  proxyFcgId : UInt32
  hostNameMax : Nat
  pathMax : Nat
  nextAddr : Nat
  launched : Bool
  gone : List Fcgi
deriving DecidableEq

/-- A process after `config_init`. -/
def Process.new (hostNameMax pathMax : Nat) : Process where
  scProxies := []
  scFcgiSocks := .empty
  scSockFd := none
  evsock := false
  evpause := false
  fcgiInflight := 0
  proxyFcgId := 0
  hostNameMax := hostNameMax
  pathMax := pathMax
  nextAddr := 0
  launched := false
  gone := []

/-- What a request sees of the process. -/
def Process.env (p : Process) : Env := ⟨p.scProxies.map Proxy.prConf, p.hostNameMax, p.pathMax⟩

/-! ## The tree of connections -/

/-- `SPLAY_REMOVE(fcgi_tree, ...)` and `fcgi_free`: the socket is closed and what its `bufferevent`
has queued is dropped. -/
def Process.fcgiFree (p : Process) (k : Sock) : Process :=
  { p with scFcgiSocks := p.scFcgiSocks.remove k.fcgId, gone := p.gone ++ [k.fcgi] }

/-- A write through a `struct fcgi *`. -/
def Process.store (p : Process) (k : Sock) : Process :=
  { p with scFcgiSocks := p.scFcgiSocks.store k }

def fcgiInflightDec (p : Process) : Process := { p with fcgiInflight := p.fcgiInflight - 1 }

/-- What `fcgi_error` does outside the connection. -/
def Process.fcgiError (p : Process) (k : Sock) : Process := fcgiInflightDec (p.fcgiFree k)

/-! ## Accepting -/

inductive Errno where
  | enfile
  | emfile
  | other
deriving DecidableEq

/-- What the system answers during one run of `fcgi_accept`. -/
structure AcceptEnv where
  getdtablecount : Nat
  getdtablesize : Nat
  accept4 : Except Errno Nat
  /-- Whether `calloc` succeeds. -/
  calloc : Bool
  /-- Whether `bufferevent_new` succeeds. -/
  bevNew : Bool
  /-- What the calls made for the new connection will answer. -/
  writes : List Bool
  asr : List AsrAnswer

def fdReserve : Nat := 5

/-- `accept_reserve`; on success the caller's counter has been incremented. -/
def acceptReserve (a : AcceptEnv) (counter : Int) : Except Errno Nat :=
  if (a.getdtablecount : Int) + fdReserve + counter ≥ a.getdtablesize then .error .emfile
  else a.accept4

/-- `event_add(ev, tv)` on a timer: without a timeout it schedules nothing. -/
def eventAddTimer (tv : Option Nat) (pending : Bool) : Bool := pending || tv.isSome

/-- `fcgi_accept`, as the callback of `sc_evsock` and (`timeout`) of `sc_evpause`. -/
def fcgiAccept (timeout : Bool) (a : AcceptEnv) (p : Process) : Process :=
  let p := { p with evpause := eventAddTimer none p.evpause }
  if timeout then p
  else match acceptReserve a p.fcgiInflight with
    | .error .other => p
    | .error _ => { p with evsock := false, evpause := eventAddTimer (some 1) p.evpause }
    | .ok _ =>
        let p := { p with fcgiInflight := p.fcgiInflight + 1 }
        if !a.calloc then fcgiInflightDec p
        else
          let p := { p with proxyFcgId := p.proxyFcgId + 1 }
          if !a.bevNew then fcgiInflightDec p
          else
            let fcgi := ⟨p.proxyFcgId, Fcgi.new a.writes a.asr, []⟩
            { p with scFcgiSocks := p.scFcgiSocks.insert fcgi }

/-! ## Connections -/

/-- `proxy_match` as it is: a pointer into `sc_proxies`. -/
def proxyMatchEntry (proxies : List Proxy) (name : Option Bytes) : Option Proxy :=
  match name with
  | none => none
  | some name => proxies.find? fun pr => pr.prConf.host == name

/-- The assignments to `clt_pc` between two states of a connection: `proxy_start_request` makes
one for each request it is called for. -/
def assignments (proxies : List Proxy) (f g : Fcgi) : List (Nat × Nat) :=
  f.fcgClients.filterMap fun c =>
    if .started c.serial ∈ g.trace.drop f.trace.length then
      (proxyMatchEntry proxies c.cltServerName).map fun pr => (c.serial, pr.addr)
    else none

/-- The address the `clt_pc` of the client with this serial was last set to. -/
def Sock.cltPc (k : Sock) (serial : Nat) : Option Nat :=
  (k.pcs.find? fun a => a.1 == serial).map Prod.snd

/-- The connection after code has run on it that left `g` of it. -/
def Sock.update (k : Sock) (proxies : List Proxy) (g : Fcgi) : Sock :=
  { k with fcgi := g, pcs := assignments proxies k.fcgi g ++ k.pcs }

/-- Something happens on a connection. -/
def Process.onSock (p : Process) (id : UInt32) (e : Event) : Process :=
  match p.scFcgiSocks.find id with
  | none => p
  | some k =>
      let k := k.update p.scProxies (step p.env k.fcgi e)
      if k.fcgi.closed then p.fcgiError k else p.store k

/-! ## `config_purge` -/

/-- `config_purge` in its first loop: the variable `fcgi`, and the process. -/
structure Purging where
  fcgi : Option UInt32
  env : Process

/-- One round of the two nested loops: pick a connection, or abort one of its requests, or free
it when it has none. -/
def purgeRound (s : Purging) : Option Purging :=
  match s.fcgi with
  | none => s.env.scFcgiSocks.min.map fun k => { s with fcgi := some k.fcgId }
  | some id =>
      match s.env.scFcgiSocks.find id with
      | none => none
      | some k =>
          match least Client.cltId k.fcgi.fcgClients with
          | none => some ⟨none, s.env.fcgiFree k⟩
          | some clt =>
              match withClient clt.cltId fcgiAbortRequest k.fcgi with
              -- `fcgi_error` has taken the connection away
              | (none, f) => some ⟨none, s.env.fcgiError { k with fcgi := f }⟩
              | (some _, f) => some ⟨some id, s.env.store { k with fcgi := f }⟩

/-- The rest of `config_purge`. -/
def purgeConfig (p : Process) : Process :=
  let p := if p.scSockFd.isSome then { p with evsock := false, evpause := false, scSockFd := none }
    else p
  { p with scProxies := [] }

/-- `config_purge`, if `n` rounds are enough for it. -/
def configPurge (n : Nat) (p : Process) : Option Process :=
  (loop purgeRound n ⟨none, p⟩).map fun s => purgeConfig s.env

/-- The rounds `config_purge` takes at most. -/
def Process.rounds (p : Process) : Nat :=
  2 * (p.scFcgiSocks.members.map fun k => k.fcgi.fcgClients.length + 1).sum + 2

/-! ## Messages of the parent -/

/-- The messages of the parent. A `IMSG_CFG_DONE` carries, as a ghost, the number of the round. -/
inductive Imsg where
  | cfgSrv (conf : ProxyConfig)
  | cfgSock (fd : Nat)
  | cfgDone (round : Nat)
  | ctlStart
  | ctlReset
deriving DecidableEq

/-- `config_getproxy`. -/
def configGetproxy (conf : ProxyConfig) (p : Process) : Process :=
  { p with scProxies := p.scProxies ++ [⟨p.nextAddr, conf⟩], nextAddr := p.nextAddr + 1 }

/-- `proxy_launch`. -/
def proxyLaunch (p : Process) : Process := { p with evsock := true, launched := true }

/-- `config_getreset`. -/
def configGetreset (p : Process) : Process :=
  { (configPurge p.rounds p).getD p with launched := false }

/-- `proxy_dispatch_parent`: the process afterwards, and the round whose `IMSG_CFG_DONE` it answers
with one of its own (`config_getcfg`). -/
def proxyDispatchParent (m : Imsg) (p : Process) : Process × Option Nat :=
  match m with
  | .cfgSrv conf => (configGetproxy conf p, none)
  | .cfgSock fd => ({ p with scSockFd := some fd, evsock := false, evpause := false }, none)
  | .cfgDone round => (proxyLaunch p, some round)
  | .ctlStart => (p, none)
  | .ctlReset => (configGetreset p, none)

/-! ## Runs -/

inductive ProcEvent where
  /-- The listening socket is readable. -/
  | acceptable (a : AcceptEnv)
  /-- The pause timer expires. -/
  | pauseOver (a : AcceptEnv)
  /-- Something happens on a connection. -/
  | sock (id : UInt32) (e : Event)
  /-- A message of the parent. -/
  | imsg (m : Imsg)

/-- What one event does. libevent only calls back for an event that is armed. -/
def Process.handle (p : Process) : ProcEvent → Process
  | .acceptable a => if p.evsock then fcgiAccept false a p else p
  | .pauseOver a => if p.evpause then fcgiAccept true a { p with evpause := false } else p
  | .sock id e => p.onSock id e
  | .imsg m => (proxyDispatchParent m p).1

/-- The process after a run. -/
def Process.run (p : Process) (es : List ProcEvent) : Process := Run.run Process.handle p es

end Galileo
