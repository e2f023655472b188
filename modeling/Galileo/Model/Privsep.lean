import Galileo.Model.Daemon
import Galileo.Model.Imsg

/-!
# The parent and its proxies, down to the bytes (`proc.c`, `config.c`, `galileo.c`)

`Model/Daemon` has a queue of messages between the parent and each proxy. Here is what the program
has: a socket pair with an `imsgbuf` at each end, structures that are copied into messages and out
of them as they lie in memory, an event loop in each process that calls `proc_dispatch` when a
socket is readable or writable, and a parent that waits in `proc_flush_imsg` for every listening
socket it sends.

* **Events.** Every process runs by itself, and one event is one callback of libevent in one of
  them, or one turn of the loop in `imsg_flush`. libevent only calls back for what was asked for,
  and while the parent flushes it calls nothing back in the parent. What `recvmsg` and `sendmsg` do
  is part of the event.
* **Memory.** `struct proxy` is sent with the two pointers of its list entry, with what is behind
  the NULs of its arrays, and with its padding. What is there is arbitrary (`Memory`). Pointers have
  eight bytes and `int` four, low byte first.
* **The end.** A process that calls `fatal` or leaves its event loop takes the others with it, so
  the daemon is `none` then. `IMSG_CTL_PROCFD`, which a proxy would be sent for a connection to a
  third kind of process, is `fatal` here: there is no such kind. `handler` is never null, and the
  calls that open the listening socket succeed.
-/

set_option autoImplicit false

namespace Galileo

open Lib

namespace Wire

/-! ## Messages -/

/-- `IMSG_*`. -/
inductive ImsgType where
  | none
  | cfgStart
  | cfgSrv
  | cfgSock
  | cfgDone
  | ctlStart
  | ctlReset
  | ctlRestart
  | ctlProcfd
deriving DecidableEq

namespace ImsgType

def all : List ImsgType :=
  [none, cfgStart, cfgSrv, cfgSock, cfgDone, ctlStart, ctlReset, ctlRestart, ctlProcfd]

def code : ImsgType → UInt32
  | none => 0
  | cfgStart => 1
  | cfgSrv => 2
  | cfgSock => 3
  | cfgDone => 4
  | ctlStart => 5
  | ctlReset => 6
  | ctlRestart => 7
  | ctlProcfd => 8

/-- The constant with this value. -/
def ofCode (n : UInt32) : Option ImsgType := all[n.toNat]?

end ImsgType

/-- What `proc_compose_imsg` gives to `imsg_compose`; the length is converted to a `uint16_t`, and
`inst` is `ps_instance`. -/
def request (type : ImsgType) (inst : Nat) (fd : Option Nat) (data : Bytes) : Request where
  type := type.code
  peerid := 0xffffffff
  pid := UInt32.ofNat (inst + 1)
  fd := fd
  data := data.take (data.length % 65536)
  data_lt := Nat.lt_of_le_of_lt (List.length_take_le _ _) (Nat.mod_lt _ (by decide))

/-! ## Structures -/

/-- What the parent's memory has where nothing is said about it: in a `struct proxy`, and at the
beginning of the `struct galileo`. -/
structure Memory where
  proxy : ProxyConfig → Nat → UInt8
  galileo : Nat → UInt8

/-- `n` bytes of memory. -/
def gap (mem : Nat → UInt8) (o n : Nat) : Bytes := (List.range' o n).map mem

/-- A `char` array with a string in it. -/
def cell (mem : Nat → UInt8) (o n : Nat) (s : Bytes) : Bytes :=
  s ++ 0 :: gap mem (o + s.length + 1) (n - s.length - 1)

/-- The string in a `char` array. -/
def cstrAt (o n : Nat) (s : Bytes) : Bytes := cstr ((s.drop o).take n)

section Layout

variable (hostNameMax pathMax : Nat)

/-! The offsets of the fields of a `struct proxy`, behind its `TAILQ_ENTRY`. -/

def hostOffset : Nat := 16

def stylesheetOffset : Nat := hostOffset + (hostNameMax + 1)

def proxyAddrOffset : Nat := stylesheetOffset hostNameMax + pathMax

def proxyNameOffset : Nat := proxyAddrOffset hostNameMax pathMax + (hostNameMax + 1)

def proxyPortOffset : Nat := proxyNameOffset hostNameMax pathMax + (hostNameMax + 1)

def flagsOffset : Nat := (proxyPortOffset hostNameMax pathMax + 6 + 3) / 4 * 4

def sizeofProxy : Nat := (flagsOffset hostNameMax pathMax + 4 + 7) / 8 * 8

/-- `flags`. -/
def flags (c : ProxyConfig) : Nat :=
  c.noTls.toNat + 2 * (c.noNavbar.toNat + 2 * (c.noFooter.toNat + 2 * c.noImgprv.toNat))

/-- A `struct proxy` in memory. -/
def proxyBytes (mem : Nat → UInt8) (c : ProxyConfig) : Bytes :=
  let portEnd := proxyPortOffset hostNameMax pathMax + 6
  let flagsEnd := flagsOffset hostNameMax pathMax + 4
  gap mem 0 hostOffset ++
    (cell mem hostOffset (hostNameMax + 1) c.host ++
    (cell mem (stylesheetOffset hostNameMax) pathMax c.stylesheet ++
    (cell mem (proxyAddrOffset hostNameMax pathMax) (hostNameMax + 1) c.proxyAddr ++
    (cell mem (proxyNameOffset hostNameMax pathMax) (hostNameMax + 1) c.proxyName ++
    (cell mem (proxyPortOffset hostNameMax pathMax) 6 c.proxyPort ++
    (gap mem portEnd (flagsOffset hostNameMax pathMax - portEnd) ++
    (le 4 (flags c) ++ gap mem flagsEnd (sizeofProxy hostNameMax pathMax - flagsEnd))))))))

/-- The configuration in a `struct proxy`. -/
def ofProxyBytes (s : Bytes) : ProxyConfig :=
  let flags := unle ((s.drop (flagsOffset hostNameMax pathMax)).take 4)
  { host := cstrAt hostOffset (hostNameMax + 1) s
    stylesheet := cstrAt (stylesheetOffset hostNameMax) pathMax s
    proxyAddr := cstrAt (proxyAddrOffset hostNameMax pathMax) (hostNameMax + 1) s
    proxyName := cstrAt (proxyNameOffset hostNameMax pathMax) (hostNameMax + 1) s
    proxyPort := cstrAt (proxyPortOffset hostNameMax pathMax) 6 s
    noTls := flags.testBit 0
    noNavbar := flags.testBit 1
    noFooter := flags.testBit 2
    noImgprv := flags.testBit 3 }

end Layout

/-! ## A socket pair in two event loops -/

/-- The socket pair and whether the two ends have asked for `EV_WRITE`; `EV_READ` they always ask
for. -/
structure Line where
  pipe : Pipe
  nearWrite : Bool
  farWrite : Bool

def Line.swap (l : Line) : Line := ⟨l.pipe.swap, l.farWrite, l.nearWrite⟩

/-- The near end does something. -/
def Line.act (l : Line) (e : Act) : Line := { l with pipe := l.pipe.act e }

/-- `imsg_event_add` at the near end. -/
def imsgEventAdd (l : Line) : Line := { l with nearWrite := l.pipe.near.ibuf.w.queued != 0 }

/-- `imsg_compose_event` at the near end; `none` is -1. -/
def imsgComposeEvent (req : Request) (l : Line) : Option Line :=
  (imsgCompose req l.pipe.near.ibuf).map fun _ => imsgEventAdd (l.act (.compose req))

/-- What `recvmsg` does: fail, for now or for good, report the end of the file, or give so many
bytes and one. (It fails for now when there is nothing.) -/
inductive Recv where
  | again
  | fail
  | eof
  | ready (n : Nat)
deriving DecidableEq

/-- What `proc_dispatch` is called for. -/
structure Ready where
  read : Option Recv
  write : Option Send
deriving DecidableEq

/-- `proc_dispatch` up to its loop, at the near end: the part for `EV_READ`. A full buffer would be
taken for the end of the file. -/
def dispatchRead (recv : Recv) (l : Line) : Option Line :=
  match recv with
  | .again => some l
  | .fail => none
  | .eof => none
  | .ready n =>
    if l.pipe.near.ibuf.r.length = ibufReadSize then none else some (l.act (.read (n + 1)))

/-- The part for `EV_WRITE`. -/
def dispatchWrite (send : Send) (l : Line) : Option Line :=
  match (msgbufWrite send l.pipe.near.ibuf.w).1 with
  | .error false => none
  | .closed => none
  | _ => some (l.act (.write send))

/-- Both. `EV_WRITE` only happens if it was asked for. -/
def dispatchIo (ready : Ready) (l : Line) : Option Line :=
  (ready.read.elim (some l) fun recv => dispatchRead recv l).bind fun l' =>
    if l.nearWrite then ready.write.elim (some l') fun send => dispatchWrite send l' else some l'

/-- The loop of `proc_dispatch`: `get` is `imsg_get` and `cb` handles the message. Every message is
larger than its header, so there is a number of turns that is enough. -/
def dispatchLoop {S : Type} (get : S → Got × S) (cb : Message → S → Option S) : Nat → S → Option S
  | 0, s => some s
  | n + 1, s =>
    match get s with
    | (.error, _) => none
    | (.nothing, s) => some s
    | (.message m, s) => (cb m s).bind (dispatchLoop get cb n)

/-! ## A proxy -/

/-- A proxy process, and the socket pair it shares with the parent. The near end is the parent's. -/
structure Link where
  line : Line
  proc : Process

section Proxy

variable (hostNameMax pathMax : Nat)

/-- `proxy_dispatch_parent`, and what `proc_dispatch` does when it returns -1. That its own message
cannot be composed is nothing to `config_getcfg`. -/
def proxyDispatchParent (inst : Nat) (imsg : Message) (k : Link) : Option Link :=
  let handle (m : Imsg) : Process := (Galileo.proxyDispatchParent m k.proc).1
  match ImsgType.ofCode imsg.type with
  | some .cfgSrv =>
    if imsg.data.length ≠ sizeofProxy hostNameMax pathMax then none
    else some { k with proc := handle (.cfgSrv (ofProxyBytes hostNameMax pathMax imsg.data)) }
  | some .cfgSock => imsg.fd.map fun fd => { k with proc := handle (.cfgSock fd) }
  | some .cfgDone =>
    let line := k.line.swap
    some
      { line := ((imsgComposeEvent (request .cfgDone inst none []) line).getD line).swap
        proc := handle (.cfgDone 0) }
  | some .ctlStart => some { k with proc := handle .ctlStart }
  | some .ctlReset => some { k with proc := handle .ctlReset }
  | _ => none

/-- `imsg_get` in a proxy. -/
def Link.get (k : Link) : Got × Link :=
  ((imsgGet k.line.pipe.far.ibuf).1, { k with line := (k.line.swap.act .get).swap })

/-- `proc_dispatch` in a proxy. -/
def Link.procDispatch (inst : Nat) (ready : Ready) (k : Link) : Option Link := do
  let line ← dispatchIo ready k.line.swap
  let k ← dispatchLoop Link.get (proxyDispatchParent hostNameMax pathMax inst)
    (line.pipe.near.ibuf.r.length + 1) { k with line := line.swap }
  pure { k with line := (imsgEventAdd k.line.swap).swap }

end Proxy

/-! ## The parent -/

/-- `struct galileo` in the parent. -/
structure Parent where
  scProxies : List ProxyConfig
  scPrefork : Nat
  scReload : Nat

/-- Where the parent is. -/
inductive Control where
  /-- In its event loop. -/
  | loop
  /-- In the `proc_flush_imsg` that `config_setsock` calls for the proxy with this number. -/
  | flushing (n fd : Nat) (mem : Memory)

structure Privsep where
  parent : Parent
  control : Control
  links : List Link

/-- `proc_compose_imsg` to all proxies: it stops where it fails. -/
def procComposeImsg (req : Request) : List Link → Bool × List Link
  | [] => (true, [])
  | k :: ks =>
    match imsgComposeEvent req k.line with
    | none => (false, k :: ks)
    | some line =>
      ((procComposeImsg req ks).1, { k with line := line } :: (procComposeImsg req ks).2)

/-- `proc_compose` to all proxies, and whether it returned 0. -/
def procCompose (type : ImsgType) (data : Bytes) (d : Privsep) : Bool × Privsep :=
  let r := procComposeImsg (request type 0 none data) d.links
  (r.1, { d with links := r.2 })

/-- `parse_config`, as in `Model/Daemon`. -/
def parseConfig (file : ConfFile) (p : Parent) : Bool × Parent :=
  let p := { p with
    scProxies := p.scProxies ++ file.stored
    scPrefork := file.prefork.getD p.scPrefork }
  (!file.errors && !p.scProxies.isEmpty, p)

/-- `config_purge` in the parent. -/
def Parent.configPurge (p : Parent) : Parent := { p with scProxies := [] }

/-- The rest of `parent_configure`, behind `config_setsock`. -/
def configured (mem : Memory) (d : Privsep) : Privsep :=
  let d := { d with parent := { d.parent with scReload := d.parent.scPrefork } }
  let d := (procCompose .cfgDone (gap mem.galileo 0 8) d).2
  { d with parent := d.parent.configPurge, control := .loop }

/-- The loop of `config_setsock` from the proxy with this number on, and what comes behind it. -/
def configSetsock (fd : Nat) (mem : Memory) (n : Nat) (d : Privsep) : Option Privsep :=
  match d.links[n]? with
  | none => some (configured mem d)
  | some k =>
    (imsgComposeEvent (request .cfgSock 0 (some fd) []) k.line).map fun line =>
      { d with
        links := d.links.modify n fun k => { k with line := line }
        control := .flushing n fd mem }

/-- A turn of the loop in `imsg_flush`, which `proc_flush_imsg` calls again when there is nothing to
be done for now. -/
def imsgFlush (send : Send) (d : Privsep) : Option Privsep :=
  match d.control with
  | .loop => some d
  | .flushing n fd mem =>
    match d.links[n]? with
    | none => some d
    | some k =>
      if k.line.pipe.near.ibuf.w.queued = 0 then
        configSetsock fd mem (n + 1)
          { d with links := d.links.modify n fun k => { k with line := imsgEventAdd k.line } }
      else
        (dispatchWrite send k.line).map fun line =>
          { d with links := d.links.modify n fun k => { k with line := line } }

/-- `parent_configure_done`. -/
def parentConfigureDone (d : Privsep) : Privsep :=
  if d.parent.scReload = 0 then d
  else
    let d := { d with parent := { d.parent with scReload := d.parent.scReload - 1 } }
    if d.parent.scReload = 0 then (procCompose .ctlStart [] d).2 else d

/-- `parent_dispatch_proxy`, and what `proc_dispatch` does when it returns -1. -/
def parentDispatchProxy (imsg : Message) (d : Privsep) : Option Privsep :=
  match ImsgType.ofCode imsg.type with
  | some .cfgDone => some (parentConfigureDone d)
  | _ => none

/-- `imsg_get` in the parent, for the proxy with this number. -/
def Privsep.get (i : Nat) (d : Privsep) : Got × Privsep :=
  match d.links[i]? with
  | none => (.nothing, d)
  | some k =>
    ((imsgGet k.line.pipe.near.ibuf).1,
      { d with links := d.links.modify i fun k => { k with line := k.line.act .get } })

/-- `proc_dispatch` in the parent, for the proxy with this number. -/
def Privsep.procDispatch (i : Nat) (ready : Ready) (d : Privsep) : Option Privsep :=
  match d.links[i]? with
  | none => some d
  | some k => do
    let line ← dispatchIo ready k.line
    let d ← dispatchLoop (Privsep.get i) parentDispatchProxy (line.pipe.near.ibuf.r.length + 1)
      { d with links := d.links.modify i fun k => { k with line := line } }
    pure { d with links := d.links.modify i fun k => { k with line := imsgEventAdd k.line } }

section Parent

variable (hostNameMax pathMax : Nat)

/-- `config_setproxy`. -/
def configSetproxy (mem : Memory) (conf : ProxyConfig) (d : Privsep) : Option Privsep :=
  match procCompose .cfgSrv (proxyBytes hostNameMax pathMax (mem.proxy conf) conf) d with
  | (false, _) => none
  | (true, d) => some d

/-- `parent_configure`, up to the first `proc_flush_imsg`. -/
def parentConfigure (fd : Nat) (mem : Memory) (d : Privsep) : Option Privsep := do
  let d ← d.parent.scProxies.foldlM (fun d conf => configSetproxy hostNameMax pathMax mem conf d) d
  configSetsock fd mem 0 d

/-- `parent_reload`. -/
def parentReload (file : ConfFile) (fd : Nat) (mem : Memory) (d : Privsep) : Option Privsep :=
  let d := { d with parent := d.parent.configPurge }
  match parseConfig file d.parent with
  | (false, p) => some { d with parent := p }
  | (true, p) =>
    -- `config_setreset`, which does not look at what `proc_compose` returns
    let d := (procCompose .ctlReset [] { d with parent := p }).2
    parentConfigure hostNameMax pathMax fd mem d

/-! ## Runs -/

inductive WireEvent where
  /-- `SIGHUP`, with the configuration file as it is then, the new socket, and the parent's
  memory. -/
  | sighup (file : ConfFile) (fd : Nat) (mem : Memory)
  /-- The parent takes another turn in `imsg_flush`. -/
  | flush (send : Send)
  /-- `proc_dispatch` in the parent, for the proxy with this number. -/
  | parentReady (i : Nat) (ready : Ready)
  /-- `proc_dispatch` in a proxy. -/
  | proxyReady (i : Nat) (ready : Ready)
  /-- The listening socket of a proxy is readable. -/
  | acceptable (i : Nat) (a : AcceptEnv)
  /-- The pause timer of a proxy expires. -/
  | pauseOver (i : Nat) (a : AcceptEnv)
  /-- Something happens on a connection of a proxy. -/
  | sock (i : Nat) (id : UInt32) (e : Event)

/-- A proxy has handled an event of its own. -/
def Privsep.proxy (d : Privsep) (i : Nat) (e : ProcEvent) : Privsep :=
  { d with links := d.links.modify i fun k => { k with proc := k.proc.handle e } }

/-- What one event does. -/
def Privsep.handle (d : Privsep) : WireEvent → Option Privsep
  | .sighup file fd mem =>
    match d.control with
    | .loop => parentReload hostNameMax pathMax file fd mem d
    | .flushing .. => some d
  | .flush send => imsgFlush send d
  | .parentReady i ready =>
    match d.control with
    | .loop => d.procDispatch i ready
    | .flushing .. => some d
  | .proxyReady i ready =>
    match d.links[i]? with
    | none => some d
    | some k =>
      (k.procDispatch hostNameMax pathMax i ready).map fun k =>
        { d with links := d.links.modify i fun _ => k }
  | .acceptable i a => some (d.proxy i (.acceptable a))
  | .pauseOver i a => some (d.proxy i (.pauseOver a))
  | .sock i id e => some (d.proxy i (.sock id e))

/-- The daemon after an event; one that is gone stays so. -/
def Privsep.step (d : Option Privsep) (e : WireEvent) : Option Privsep :=
  d.bind fun d => d.handle hostNameMax pathMax e

/-- `main`: the processes are started and the first configuration is sent, if there is one. -/
def boot (file : ConfFile) (fd : Nat) (mem : Memory) (pid : UInt32) (pids : Nat → UInt32) :
    Option Privsep :=
  match parseConfig file ⟨[], proxyNumproc, 0⟩ with
  | (false, _) => none
  | (true, p) =>
    parentConfigure hostNameMax pathMax fd mem
      { parent := p
        control := .loop
        links := (List.range p.scPrefork).map fun i =>
          ⟨⟨Pipe.new pid (pids i), false, false⟩, Process.new hostNameMax pathMax⟩ }

end Parent

end Wire

end Galileo
