import Galileo.Lib.Endless
import Galileo.Proof.Privsep
import Mathlib.Data.Nat.Pairing

/-!
# Every reload completes

A reload takes a while: the parent waits for one proxy after the other to be sent its socket, the
bytes go through the socket pairs in pieces, every proxy answers, and the last answer makes the
parent write once more. None of this waits for something that does not come (`reload_completes`): if
the kernel lets a process read that has something to read, and write that has asked for it, then
after the last reload all is written, read and taken at some time, and every proxy has the
configuration.

What is left to be done is counted by `rank`, and everything that happens leaves it alone or makes
it less. `Fair` is about the kernel only: that the processes ask for what they need is part of the
proof.
-/

set_option autoImplicit false

namespace Galileo

open Lib

namespace Wire

variable {hostNameMax pathMax fd n i : Nat} {w : Privsep} {d : Daemon} {k : Link}

/-- Whatever happens that is not a reload, less is left to be done or the messages are where they
were. -/
theorem Related.progress (h : Related hostNameMax pathMax w d) {e : WireEvent}
    (he : Allowed hostNameMax pathMax w e) (hquiet : e.reloads = []) {w' : Privsep}
    (hw' : w.handle hostNameMax pathMax e = some w') :
    w'.view = w.view ∨ rank w'.view < rank w.view := by
  cases e with
  | sighup file fd mem => cases hquiet
  | flush send =>
    obtain ⟨w₁, hw₁, -, hchanged, -⟩ := h.flush he
    obtain rfl := Option.some.inj (hw₁.symm.trans hw')
    exact hchanged
  | parentReady i ready =>
    obtain ⟨w₁, es, hw₁, -, -, hloop, hother⟩ := h.parentReady i he
    obtain rfl := Option.some.inj (hw₁.symm.trans hw')
    by_cases hcontrol : w.control = .loop
    · exact (hloop hcontrol).changed
    · exact Or.inl (by rw [hother hcontrol])
  | proxyReady i ready =>
    obtain ⟨w₁, n, hw₁, -, hprogress⟩ := h.proxyReady i he
    obtain rfl := Option.some.inj (hw₁.symm.trans hw')
    exact hprogress.changed
  | acceptable i a =>
    obtain rfl := Option.some.inj hw'
    exact Or.inl (view_own w i _)
  | pauseOver i a =>
    obtain rfl := Option.some.inj hw'
    exact Or.inl (view_own w i _)
  | sock i id e =>
    obtain rfl := Option.some.inj hw'
    exact Or.inl (view_own w i _)

/-! ## The kernel -/

/-- In this state, the proxy with this number and its line. -/
def AtLine (i : Nat) (P : Privsep → Line → Prop) (s : Option Privsep) : Prop :=
  ∃ w ∈ s, ∃ k ∈ w.links[i]?, P w k.line

/-- **The kernel is fair.** A process that can read, or has asked to write, gets to do it at some
time; and so does the parent in `imsg_flush`. -/
structure Fair (s : Nat → Option Privsep) (es : Nat → WireEvent) : Prop where
  flush : Run.WeaklyFair s es (fun s => ∃ w ∈ s, w.control ≠ .loop)
    fun e => ∃ n, e = .flush (.sent (n + 1))
  parentReads : ∀ i, Run.WeaklyFair s es
    (AtLine i fun w l => w.control = .loop ∧ l.pipe.toNear ≠ [])
    fun e => ∃ n write, e = .parentReady i ⟨some (.ready n), write⟩
  parentWrites : ∀ i, Run.WeaklyFair s es
    (AtLine i fun w l => w.control = .loop ∧ l.nearWrite = true)
    fun e => ∃ read n, e = .parentReady i ⟨read, some (.sent (n + 1))⟩
  proxyReads : ∀ i, Run.WeaklyFair s es (AtLine i fun _ l => l.pipe.toFar ≠ [])
    fun e => ∃ n write, e = .proxyReady i ⟨some (.ready n), write⟩
  proxyWrites : ∀ i, Run.WeaklyFair s es (AtLine i fun _ l => l.farWrite = true)
    fun e => ∃ read n, e = .proxyReady i ⟨read, some (.sent (n + 1))⟩

/-- Nothing is queued or on its way, in either direction. -/
structure Line.Quiet (l : Line) : Prop where
  near : l.pipe.near.ibuf.w.queued = 0
  toFar : l.pipe.toFar = []
  far : l.pipe.far.ibuf.w.queued = 0
  toNear : l.pipe.toNear = []

/-! ## Standing still -/

section Still

variable {s : Nat → Privsep} {es : Nat → WireEvent} {last : Nat}

/-- A run in which the messages are where they were from some time on. -/
structure Still (hostNameMax pathMax : Nat) (s : Nat → Privsep) (es : Nat → WireEvent)
    (last : Nat) :
    Prop where
  related : ∀ n, ∃ d, Related hostNameMax pathMax (s n) d
  allowed : ∀ n, Allowed hostNameMax pathMax (s n) (es n)
  step : ∀ n, (s n).handle hostNameMax pathMax (es n) = some (s (n + 1))
  still : ∀ n, last ≤ n → (s n).view = (s last).view

/-- Nothing gets done in it. -/
theorem Still.not_less (h : Still hostNameMax pathMax s es last) (hn : last ≤ n) :
    ¬ rank (s (n + 1)).view < rank (s n).view := by
  rw [h.still n hn, h.still (n + 1) (Nat.le_succ_of_le hn)]
  exact lt_irrefl _

theorem Still.control (h : Still hostNameMax pathMax s es last) (hn : last ≤ n) :
    (s n).control = (s last).control := congrArg Prod.fst (h.still n hn)

theorem Still.line (h : Still hostNameMax pathMax s es last) (hn : last ≤ n)
    (hk : (s last).links[i]? = some k) :
    ∃ k', (s n).links[i]? = some k' ∧ k'.line = k.line := by
  have hlines := congrArg (fun v => v.2[i]?) (h.still n hn)
  simp only [Privsep.view, List.getElem?_map, hk, Option.map_some] at hlines
  exact Option.map_eq_some_iff.mp hlines

/-- What holds of a line goes on to hold. -/
theorem Still.atLine (h : Still hostNameMax pathMax s es last) (hk : (s last).links[i]? = some k)
    {P : Privsep → Line → Prop} (hn : last ≤ n) (hP : P (s n) k.line) :
    AtLine i P (some (s n)) := by
  obtain ⟨k', hk', hline⟩ := h.line hn hk
  exact ⟨s n, rfl, k', hk', by rw [hline]; exact hP⟩

/-- The parent is in its event loop: it would get on in `imsg_flush`. -/
theorem Still.loop (h : Still hostNameMax pathMax s es last)
    (hfair : Fair (fun n => some (s n)) es) (hn : last ≤ n) : (s n).control = .loop := by
  rw [h.control hn]
  by_contra hcontrol
  obtain ⟨n, hn, a, he⟩ := hfair.flush last fun m hm =>
    ⟨s m, rfl, by rw [h.control hm]; exact hcontrol⟩
  obtain ⟨d, hrel⟩ := h.related n
  have hallowed := h.allowed n
  have hstep := h.step n
  rw [he] at hallowed hstep
  obtain ⟨w', hw', -, -, hless⟩ := hrel.flush hallowed
  obtain rfl := Option.some.inj (hw'.symm.trans hstep)
  exact h.not_less hn (hless (by rw [h.control hn]; exact hcontrol) a rfl)

/-- There is nothing to read or write for a process that would get on with it. -/
theorem Still.idle (h : Still hostNameMax pathMax s es last) (hk : (s last).links[i]? = some k)
    {event : Ready → WireEvent} {R W : Line → Prop} {P Q : Privsep → Line → Prop}
    (hP : ∀ n, last ≤ n → R k.line → P (s n) k.line)
    (hQ : ∀ n, last ≤ n → W k.line → Q (s n) k.line)
    (hread : Run.WeaklyFair (fun n => some (s n)) es (AtLine i P)
      fun e => ∃ n write, e = event ⟨some (.ready n), write⟩)
    (hwrite : Run.WeaklyFair (fun n => some (s n)) es (AtLine i Q)
      fun e => ∃ read n, e = event ⟨read, some (.sent (n + 1))⟩)
    (hprogress : ∀ n ready, last ≤ n → es n = event ready →
      ready.Progress (∃ k ∈ (s n).links[i]?, R k.line) (∃ k ∈ (s n).links[i]?, W k.line) True
        False) :
    ¬ R k.line ∧ ¬ W k.line := by
  refine ⟨fun hr => ?_, fun ha => ?_⟩
  · obtain ⟨n, hn, a, write, he⟩ := hread last fun n hn => h.atLine hk hn (hP n hn hr)
    obtain ⟨k', hk', hline⟩ := h.line hn hk
    exact (hprogress n _ hn he).read a rfl ⟨k', hk', hline ▸ hr⟩
  · obtain ⟨n, hn, read, a, he⟩ := hwrite last fun n hn => h.atLine hk hn (hQ n hn ha)
    obtain ⟨k', hk', hline⟩ := h.line hn hk
    exact (hprogress n _ hn he).write a rfl ⟨k', hk', hline ▸ ha⟩

theorem Still.near (h : Still hostNameMax pathMax s es last) (hfair : Fair (fun n => some (s n)) es)
    (hk : (s last).links[i]? = some k) : k.line.pipe.toNear = [] ∧ k.line.nearWrite = false := by
  rw [← not_ne_iff, ← Bool.not_eq_true]
  refine h.idle (R := fun l => l.pipe.toNear ≠ []) (W := fun l => l.nearWrite = true) hk
    (fun n hn => .intro (h.loop hfair hn)) (fun n hn => .intro (h.loop hfair hn))
    (hfair.parentReads i) (hfair.parentWrites i) fun n ready hn he => ?_
  obtain ⟨d, hrel⟩ := h.related n
  have hallowed := h.allowed n
  have hstep := h.step n
  rw [he] at hallowed hstep
  obtain ⟨w', es', hw', -, -, hprogress, -⟩ := hrel.parentReady i hallowed
  obtain rfl := Option.some.inj (hw'.symm.trans hstep)
  exact (hprogress (h.loop hfair hn)).imp (fun _ => trivial) (h.not_less hn)

theorem Still.far (h : Still hostNameMax pathMax s es last) (hfair : Fair (fun n => some (s n)) es)
    (hk : (s last).links[i]? = some k) : k.line.pipe.toFar = [] ∧ k.line.farWrite = false := by
  rw [← not_ne_iff, ← Bool.not_eq_true]
  refine h.idle (R := fun l => l.pipe.toFar ≠ []) (W := fun l => l.farWrite = true) hk
    (fun _ _ => id) (fun _ _ => id) (hfair.proxyReads i) (hfair.proxyWrites i)
    fun n ready hn he => ?_
  obtain ⟨d, hrel⟩ := h.related n
  have hallowed := h.allowed n
  have hstep := h.step n
  rw [he] at hallowed hstep
  obtain ⟨w', m, hw', -, hprogress⟩ := hrel.proxyReady i hallowed
  obtain rfl := Option.some.inj (hw'.symm.trans hstep)
  exact hprogress.imp (fun _ => trivial) (h.not_less hn)

/-- So nothing is queued or on its way. -/
theorem Still.quiet (h : Still hostNameMax pathMax s es last)
    (hfair : Fair (fun n => some (s n)) es) (hn : last ≤ n) :
    ∀ k ∈ (s n).links, k.line.Quiet := by
  have hlast : ∀ k ∈ (s last).links, k.line.Quiet := by
    intro k hk
    obtain ⟨i, hi⟩ := List.getElem?_of_mem hk
    obtain ⟨d, hrel⟩ := h.related last
    cases hrel with
    | flushing hcontrol _ _ _ =>
      exact Control.noConfusion ((h.loop hfair (Nat.le_refl last)).symm.trans hcontrol)
    | loop hcontrol hagree hlinks =>
      obtain ⟨peer, hpeer, hrel⟩ := Matched.exists_right hlinks hi
      obtain ⟨hreadNear, hwriteNear⟩ := h.near hfair hi
      obtain ⟨hreadFar, hwriteFar⟩ := h.far hfair hi
      have hnear := hrel.line.near.1
      have hfar : k.line.farWrite = (k.line.pipe.far.ibuf.w.queued != 0) := hrel.line.far.1
      rw [hwriteNear] at hnear
      rw [hwriteFar] at hfar
      exact ⟨by simpa using hnear.symm, hreadFar, by simpa using hfar.symm, hreadNear⟩
  intro k hk
  have hmem : k.line ∈ (s n).view.2 := List.mem_map_of_mem hk
  rw [h.still n hn] at hmem
  obtain ⟨k', hk', hline⟩ := List.mem_map.mp hmem
  rw [← hline]
  exact hlast k' hk'

end Still

/-! ## The processes -/

/-- Whether a process is launched, and with which socket. -/
def place (p : Process) : Bool × Option Nat := (p.launched, p.scSockFd)

/-- What a message does to that. -/
def placed (s : Bool × Option Nat) : Imsg → Bool × Option Nat
  | .cfgSock fd => (s.1, some fd)
  | .cfgDone _ => (true, s.2)
  | .ctlReset => (false, none)
  | _ => s

theorem place_own {p : Process} {e : ProcEvent} (he : ∀ m, e ≠ .imsg m) :
    place (p.handle e) = place p :=
  Prod.ext (handle_own he).2.1 (handle_own he).2.2

theorem place_dispatch (m : Imsg) (p : Process) :
    place (Galileo.proxyDispatchParent m p).1 = placed (place p) m := by
  cases m with
  | cfgSrv conf => rfl
  | cfgSock fd => rfl
  | cfgDone round => rfl
  | ctlStart => rfl
  | ctlReset =>
    obtain ⟨q, hq, -, -⟩ := configGetreset_rule (I := fun _ => True)
      (fun _ _ _ _ => trivial) (p := p) trivial
    rw [Galileo.proxyDispatchParent, hq]
    refine Prod.ext rfl ?_
    show (purgeConfig q).scSockFd = none
    unfold purgeConfig
    split
    · rfl
    · next hnone => simpa using hnone

/-- The process is launched with this socket when it has taken all its messages. -/
def Launches (fd : Nat) (peer : Peer) : Prop :=
  peer.inbox.foldl placed (place peer.proc) = (true, some fd)

/-- The socket after a reload. -/
def opened (fd : Nat) (r : ConfFile × Nat) : Nat := if r.1.valid then r.2 else fd

theorem foldl_placed_srv (confs : List ProxyConfig) (s : Bool × Option Nat) :
    (confs.map Imsg.cfgSrv).foldl placed s = s := by
  induction confs with
  | nil => rfl
  | cons conf confs ih => exact ih

theorem foldl_placed_roundMsgs (confs : List ProxyConfig) (fd round : Nat) (s : Bool × Option Nat) :
    (roundMsgs confs fd round).foldl placed s = (true, some fd) := by
  rw [roundMsgs, List.foldl_append, foldl_placed_srv]
  rfl

theorem launches_own (h : Everyone (fun _ => Launches fd) d.peers) (i : Nat) {e : ProcEvent}
    (he : ∀ m, e ≠ .imsg m) :
    Everyone (fun _ => Launches fd) (d.proxy i e).peers := by
  refine Everyone.modify h (fun peer _ hpeer => ?_) fun _ _ _ hpeer => hpeer
  show peer.inbox.foldl placed (place (peer.proc.handle e)) = _
  rw [place_own he]
  exact hpeer

theorem launches_handle (h : Everyone (fun _ => Launches fd) d.peers) (e : DaemonEvent) :
    Everyone (fun _ => Launches ((reloads e).foldl opened fd)) (d.handle e).peers := by
  cases e with
  | sighup file fd' =>
    rw [Daemon.handle, parentReload_eq]
    show Everyone (fun _ => Launches (if file.valid then fd' else fd)) _
    split
    · refine Everyone.map h fun i peer hpeer => ?_
      rw [Launches, Peer.send, List.foldl_append, List.foldl_cons, foldl_placed_roundMsgs]
    · exact h
  | receive i =>
    refine Everyone.modify h (fun peer _ hpeer => ?_) fun _ _ _ hpeer => hpeer
    unfold Peer.receive
    cases hin : peer.inbox with
    | nil => exact hpeer
    | cons m rest =>
      rw [Launches, hin, List.foldl_cons, ← place_dispatch] at hpeer
      exact hpeer
  | takeAck i =>
    refine (takeAck_everyone h (fun _ _ => id) (fun peer hpeer => ?_) i).2
    rw [Launches, Peer.send, List.foldl_append, hpeer]
    rfl
  | acceptable i a => exact launches_own h i fun _ => ProcEvent.noConfusion
  | pauseOver i a => exact launches_own h i fun _ => ProcEvent.noConfusion
  | sock i id e => exact launches_own h i fun _ => ProcEvent.noConfusion

theorem launches_run (h : Everyone (fun _ => Launches fd) d.peers) (es : List DaemonEvent) :
    Everyone (fun _ => Launches ((es.flatMap reloads).foldl opened fd)) (d.run es).peers := by
  induction es generalizing d fd with
  | nil => exact h
  | cons e es ih =>
    rw [List.flatMap_cons, List.foldl_append]
    exact ih (launches_handle h e)

theorem launches_boot {file : ConfFile} (h : Galileo.boot hostNameMax pathMax file fd = some d) :
    Everyone (fun _ => Launches fd) d.peers := by
  rw [boot_eq h]
  exact Everyone.replicate fun _ _ => foldl_placed_roundMsgs _ _ _ _

/-! ## Reloads -/

section Runs

variable {file : ConfFile} {mem : Memory} {pid : UInt32} {pids : Nat → UInt32}
  {es : Nat → WireEvent}

/-- From the time of the last reload on, there are no more. -/
theorem reloads_first {start n : Nat} (hn : start ≤ n)
    (hquiet : ∀ n, start ≤ n → (es n).reloads = []) : (Run.first es n).flatMap WireEvent.reloads
    = (Run.first es start).flatMap WireEvent.reloads := by
  obtain ⟨m, rfl⟩ := Nat.exists_eq_add_of_le hn
  rw [Run.first_add, List.flatMap_append]
  have hnone : (Run.first (fun i => es (start + i)) m).flatMap WireEvent.reloads = [] := by
    refine List.flatMap_eq_nil_iff.mpr fun e he => ?_
    obtain ⟨i, -, rfl⟩ := List.mem_map.mp he
    exact hquiet (start + i) (Nat.le_add_right start i)
  rw [hnone, List.append_nil]

/-- **Every reload completes.** If the kernel is fair and there are no more reloads from some time
on, then at some time the parent is back in its event loop and nothing is queued or on its way any
more, and it stays so; and every proxy has the configuration of the last reload that succeeded and
has been launched with its socket. -/
theorem reload_completes (hsize : headerSize + sizeofProxy hostNameMax pathMax ≤ maxImsgsize)
    (hfits : ∀ conf ∈ file.stored, Fits hostNameMax pathMax conf)
    (hboot : boot hostNameMax pathMax file fd mem pid pids = some w)
    (hes : ∀ n, Works hostNameMax pathMax w (Run.first es n))
    (hfair :
      Fair (fun n => Run.run (Privsep.step hostNameMax pathMax) (some w) (Run.first es n)) es)
    {start : Nat} (hquiet : ∀ n, start ≤ n → (es n).reloads = []) :
    let rs := (Run.first es start).flatMap WireEvent.reloads
    ∃ last, start ≤ last ∧ ∀ n, last ≤ n → ∃ w',
      Run.run (Privsep.step hostNameMax pathMax) (some w) (Run.first es n) = some w' ∧
      w'.control = .loop ∧
      ∀ k ∈ w'.links, k.line.Quiet ∧
        k.proc.scProxies.map Proxy.prConf = rs.foldl loaded file.stored ∧
        k.proc.launched = true ∧ k.proc.scSockFd = some (rs.foldl opened fd) := by
  intro rs
  choose s d es' hrun hd hobs hrel using fun n => exists_run hsize hfits hboot (hes n)
  have hstep : ∀ n, (s n).handle hostNameMax pathMax (es n) = some (s (n + 1)) := by
    intro n
    have hnext := hrun (n + 1)
    rw [Run.run_first_succ, hrun n] at hnext
    exact hnext
  have hallowed : ∀ n, Allowed hostNameMax pathMax (s n) (es n) := by
    intro n
    have hnext := hes (n + 1)
    rw [Run.first_succ] at hnext
    exact (Run.Steps.append.mp hnext).2.1 (s n) (hrun n)
  obtain ⟨last, hstart, hstill⟩ := Run.settles (fun n => (s n).view) fun n (hn : start ≤ n) =>
    (hrel n).progress (hallowed n) (hquiet n hn) (hstep n)
  have hall : Still hostNameMax pathMax s es last :=
    ⟨fun n => ⟨_, hrel n⟩, hallowed, hstep, hstill⟩
  have hfair' : Fair (fun n => some (s n)) es := by
    simpa only [hrun] using hfair
  refine ⟨last, hstart, fun n hn => ⟨s n, hrun n, hall.loop hfair' hn, fun k hk => ?_⟩⟩
  have hline := hall.quiet hfair' hn k hk
  obtain ⟨peer, hpeer, hproc, hin⟩ :=
    (hrel n).inbox_nil (hall.loop hfair' hn) hk hline.near hline.toFar
  have hreloads : (es' n).flatMap reloads = rs := by
    rw [hobs n]
    exact reloads_first (Nat.le_trans hstart hn) hquiet
  have hlaunches := Everyone.mem (launches_run (launches_boot (hd n)) (es' n)) hpeer
  rw [Launches, hin, List.foldl_nil, hreloads] at hlaunches
  rw [← hproc, ← hreloads]
  refine ⟨hline, confs_of_inbox_nil (hd n) (es' n) hpeer hin, congrArg Prod.fst hlaunches, ?_⟩
  rw [hreloads]
  exact congrArg Prod.snd hlaunches

/-- Everybody gets to read and write a byte at a time. -/
def byteByByte (n : Nat) : WireEvent :=
  let ready : Ready := ⟨some (.ready 0), some (.sent 1)⟩
  let i := (Nat.unpair (n / 3)).1
  if n % 3 = 0 then .flush (.sent 1)
  else if n % 3 = 1 then .parentReady i ready
  else .proxyReady i ready

theorem byteByByte_cases (n : Nat) : byteByByte n = .flush (.sent 1) ∨
    ∃ i, byteByByte n = .parentReady i ⟨some (.ready 0), some (.sent 1)⟩ ∨
      byteByByte n = .proxyReady i ⟨some (.ready 0), some (.sent 1)⟩ := by
  rw [byteByByte]
  split
  · exact Or.inl rfl
  · split
    · exact Or.inr ⟨_, Or.inl rfl⟩
    · exact Or.inr ⟨_, Or.inr rfl⟩

theorem byteByByte_works (w : Privsep) (n : Nat) : Works 255 1024 w (Run.first byteByByte n) := by
  have hsend : Send.Works (.sent 1) := ⟨Send.noConfusion, by simp⟩
  have hready : Ready.Works ⟨some (.ready 0), some (.sent 1)⟩ :=
    ⟨fun recv h => by cases h; exact ⟨Recv.noConfusion, Recv.noConfusion⟩,
      fun send h => by cases h; exact hsend⟩
  refine Run.Steps.of_mem (fun e he s w _ => ?_) _
  obtain ⟨i, -, rfl⟩ := List.mem_map.mp he
  rcases byteByByte_cases i with heq | ⟨j, heq | heq⟩
  · rw [heq]
    exact hsend
  · rw [heq]
    exact hready
  · rw [heq]
    exact hready

/-- Each of the three comes again, for every number. -/
theorem byteByByte_fair (s : Nat → Option Privsep) : Fair s byteByByte := by
  have hle : ∀ i n r, n ≤ 3 * Nat.pair i n + r := fun i n r => by
    have hpair := Nat.right_le_pair i n
    omega
  have hflush : ∀ n, byteByByte (3 * Nat.pair 0 n) = .flush (.sent 1) := fun n => by
    rw [byteByByte, if_pos (by omega)]
  have hparent : ∀ i n, byteByByte (3 * Nat.pair i n + 1)
      = .parentReady i ⟨some (.ready 0), some (.sent 1)⟩ := fun i n => by
    have hdiv : (3 * Nat.pair i n + 1) / 3 = Nat.pair i n := by omega
    rw [byteByByte, if_neg (by omega), if_pos (by omega), hdiv, Nat.unpair_pair]
  have hproxy : ∀ i n, byteByByte (3 * Nat.pair i n + 2)
      = .proxyReady i ⟨some (.ready 0), some (.sent 1)⟩ := fun i n => by
    have hdiv : (3 * Nat.pair i n + 2) / 3 = Nat.pair i n := by omega
    rw [byteByByte, if_neg (by omega), if_neg (by omega), hdiv, Nat.unpair_pair]
  exact
    { flush := fun n _ => ⟨_, hle 0 n 0, 0, hflush n⟩
      parentReads := fun i n _ => ⟨_, hle i n 1, 0, _, hparent i n⟩
      parentWrites := fun i n _ => ⟨_, hle i n 1, _, 0, hparent i n⟩
      proxyReads := fun i n _ => ⟨_, hle i n 2, 0, _, hproxy i n⟩
      proxyWrites := fun i n _ => ⟨_, hle i n 2, _, 0, hproxy i n⟩ }

theorem byteByByte_completes : ∃ w,
    boot 255 1024 twoFile 3 ⟨fun _ _ => 7, fun _ => 8⟩ 100 (fun _ => 101) = some w ∧
    ∃ last, 0 ≤ last ∧ ∀ n, last ≤ n → ∃ w',
      Run.run (Privsep.step 255 1024) (some w) (Run.first byteByByte n) = some w' ∧
      w'.control = .loop ∧
      ∀ k ∈ w'.links, k.line.Quiet ∧ k.proc.scProxies.map Proxy.prConf = twoFile.stored ∧
        k.proc.launched = true ∧ k.proc.scSockFd = some 3 := by
  obtain ⟨w, hw⟩ := exists_boot_two
  have hquiet : ∀ n, 0 ≤ n → (byteByByte n).reloads = [] := by
    intro n _
    rcases byteByByte_cases n with heq | ⟨i, heq | heq⟩
    · rw [heq]
      rfl
    · rw [heq]
      rfl
    · rw [heq]
      rfl
  exact ⟨w, hw,
    reload_completes (by decide) twoFile_fits hw (byteByByte_works w) (byteByByte_fair _)
    hquiet⟩

end Runs

end Wire

end Galileo
