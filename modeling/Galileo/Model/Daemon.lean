import Galileo.Model.Process

/-!
# The parent and its proxies (`galileo.c`, `parse.y`, the rest of `config.c`)

The parent reads the configuration and sends it to the proxy processes, at startup and on every
`SIGHUP`; a proxy answers `IMSG_CFG_DONE` when it has the whole of it, and the parent counts these
answers in `sc_reload`. The number of processes is fixed at startup, `sc_prefork` is whatever the
last configuration file said.

* **Channels.** Between the parent and each proxy there is one FIFO of `imsg`s in each direction.
  Every event takes one message of one channel, or is a signal, or is something that happens in one
  proxy alone (`ProcEvent`), so a run is any interleaving.
* **The configuration file** is what `parse_config` makes of it: the proxies it has stored when it
  ends, the last `prefork` it has set, and whether it has reported an error. A proxy block that is
  wrong is stored before the error is reported, so any list can go with an error.
* **Failures.** The calls that open the listening socket succeed; the parent exits otherwise.
* **Ghosts.** `round` numbers the configurations that were sent, `IMSG_CFG_DONE` carries the number
  of its round in both directions, and `log` has the answers the parent has taken and the
  `IMSG_CTL_START`s it has sent.
-/

set_option autoImplicit false

namespace Galileo

open Lib

def proxyNumproc : Nat := 3

def procMaxInstances : Nat := 32

structure ConfFile where
  stored : List ProxyConfig
  prefork : Option Nat
  range : (prefork.all fun n => 0 < n && n ≤ procMaxInstances) = true
  errors : Bool

inductive Sign where
  /-- The parent takes the `IMSG_CFG_DONE` of this proxy. -/
  | acked (i round : Nat)
  /-- The parent sends `IMSG_CTL_START`. -/
  | started (round : Nat)
deriving DecidableEq

/-- `struct galileo` in the parent. -/
structure Parent where
  scProxies : List ProxyConfig
  scPrefork : Nat
  scReload : Nat
  round : Nat
  log : List Sign

/-- A proxy process and the messages on their way to it and from it. -/
structure Peer where
  proc : Process
  inbox : List Imsg
  outbox : List Nat

structure Daemon where
  parent : Parent
  peers : List Peer

/-! ## The parent -/

/-- `parse_config`: whether it returns 0, and what it leaves. -/
def parseConfig (file : ConfFile) (p : Parent) : Bool × Parent :=
  let p := { p with
    scProxies := p.scProxies ++ file.stored
    scPrefork := file.prefork.getD p.scPrefork }
  (!file.errors && !p.scProxies.isEmpty, p)

/-- `config_purge` in the parent, which has no connections and no listening socket. -/
def Parent.configPurge (p : Parent) : Parent := { p with scProxies := [] }

/-- `proc_compose` to all proxies. -/
def Daemon.procCompose (d : Daemon) (m : Imsg) : Daemon :=
  { d with peers := d.peers.map fun peer => { peer with inbox := peer.inbox ++ [m] } }

/-- `parent_configure`. -/
def parentConfigure (fd : Nat) (d : Daemon) : Daemon :=
  let d := d.parent.scProxies.foldl (fun d conf => d.procCompose (.cfgSrv conf)) d
  let d := d.procCompose (.cfgSock fd)
  let d : Daemon := { d with parent := { d.parent with
    scReload := d.parent.scPrefork
    round := d.parent.round + 1 } }
  let d := d.procCompose (.cfgDone d.parent.round)
  { d with parent := d.parent.configPurge }

/-- `parent_configure_done`. -/
def parentConfigureDone (d : Daemon) : Daemon :=
  if d.parent.scReload = 0 then d
  else
    let d : Daemon := { d with parent := { d.parent with scReload := d.parent.scReload - 1 } }
    if d.parent.scReload = 0 then
      let d : Daemon := { d with parent := { d.parent with
        log := d.parent.log ++ [Sign.started d.parent.round] } }
      d.procCompose .ctlStart
    else d

/-- `parent_reload`. A round that is in progress is only remarked upon. -/
def parentReload (file : ConfFile) (fd : Nat) (d : Daemon) : Daemon :=
  let d : Daemon := { d with parent := d.parent.configPurge }
  match parseConfig file d.parent with
  | (false, p) => { d with parent := p }
  | (true, p) => parentConfigure fd ({ d with parent := p }.procCompose .ctlReset)

/-- The parent takes a message of the proxy with this number. -/
def Daemon.takeAck (d : Daemon) (i : Nat) : Daemon :=
  match d.peers[i]? with
  | none => d
  | some peer =>
      match peer.outbox with
      | [] => d
      | round :: rest =>
          parentConfigureDone
            { parent := { d.parent with log := d.parent.log ++ [.acked i round] }
              peers := d.peers.modify i fun peer => { peer with outbox := rest } }

/-! ## The proxies -/

/-- The proxy takes a message of the parent. -/
def Peer.receive (peer : Peer) : Peer :=
  match peer.inbox with
  | [] => peer
  | m :: rest =>
      let r := proxyDispatchParent m peer.proc
      ⟨r.1, rest, peer.outbox ++ r.2.toList⟩

/-! ## Runs -/

inductive DaemonEvent where
  /-- `SIGHUP`, with the configuration file as it is then and the descriptor of the new socket. -/
  | sighup (file : ConfFile) (fd : Nat)
  /-- A proxy takes a message of the parent. -/
  | receive (i : Nat)
  /-- The parent takes a message of a proxy. -/
  | takeAck (i : Nat)
  /-- The listening socket of a proxy is readable. -/
  | acceptable (i : Nat) (a : AcceptEnv)
  /-- The pause timer of a proxy expires. -/
  | pauseOver (i : Nat) (a : AcceptEnv)
  /-- Something happens on a connection of a proxy. -/
  | sock (i : Nat) (id : UInt32) (e : Event)

/-- A proxy has handled an event of its own. -/
def Daemon.proxy (d : Daemon) (i : Nat) (e : ProcEvent) : Daemon :=
  { d with peers := d.peers.modify i fun peer => { peer with proc := peer.proc.handle e } }

def Daemon.handle (d : Daemon) : DaemonEvent → Daemon
  | .sighup file fd => parentReload file fd d
  | .receive i => { d with peers := d.peers.modify i Peer.receive }
  | .takeAck i => d.takeAck i
  | .acceptable i a => d.proxy i (.acceptable a)
  | .pauseOver i a => d.proxy i (.pauseOver a)
  | .sock i id e => d.proxy i (.sock id e)

/-- The state after a run. -/
def Daemon.run (d : Daemon) (es : List DaemonEvent) : Daemon := Run.run Daemon.handle d es

/-- `main`: the processes are started and sent the first configuration, if there is one. The
proxies forget what they have parsed themselves (`config_init`). -/
def boot (hostNameMax pathMax : Nat) (file : ConfFile) (fd : Nat) : Option Daemon :=
  match parseConfig file ⟨[], proxyNumproc, 0, 0, []⟩ with
  | (false, _) => none
  | (true, p) =>
      some (parentConfigure fd
        ⟨p, List.replicate p.scPrefork ⟨Process.new hostNameMax pathMax, [], []⟩⟩)

end Galileo
