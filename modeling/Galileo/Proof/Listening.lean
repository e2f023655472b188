import Galileo.Proof.Reload
import Galileo.Proof.Sockets

/-!
# Accepting connections

Two things a proxy process has to keep right to go on accepting: the counter `fcgi_inflight`, which
`accept_reserve` takes off the descriptors it may use, and the pair of events `sc_evsock` and
`sc_evpause`, one of which is to be armed at any time.

Both are lost on one path only. `config_purge` frees the connections it finds without the decrement
that `fcgi_error` has, so every connection that is open at a reset stays in the counter for good.
And when the pause is over `fcgi_accept` re-arms the pause (with a null timeout, that is: not at
all) where it should re-arm the listening socket.
-/

set_option autoImplicit false

namespace Galileo

open Lib Lib.Run

/-! ## `fcgi_inflight` -/

section Count

variable {p : Process}

@[simp] theorem purgeConfig_fcgiInflight : (purgeConfig p).fcgiInflight = p.fcgiInflight := by
  unfold purgeConfig
  split <;> rfl

/-- The counter is the number of connections, and their ids are not far behind the last one. -/
structure Process.Counted (p : Process) : Prop where
  inflight : p.fcgiInflight = p.scFcgiSocks.members.length
  ids : ∀ k ∈ p.scFcgiSocks.members, (p.proxyFcgId - k.fcgId).toNat < 2 ^ 31

/-- A connection that is taken out of the tree and of the count. -/
theorem Process.Counted.fcgiError (h : p.Counted) {k : Sock} (hk : k ∈ p.scFcgiSocks.members)
    {k' : Sock} (hid : k'.fcgId = k.fcgId) : (p.fcgiError k').Counted where
  inflight := by
    have hlen := Tree.length_remove hk
    simp only [Process.fcgiError, fcgiInflightDec, Process.fcgiFree, h.inflight, hid]
    omega
  ids := fun j hj => h.ids j (Tree.mem_remove.mp hj).1

theorem Process.Counted.store (h : p.Counted) {k k' : Sock} (hk : k ∈ p.scFcgiSocks.members)
    (hid : k'.fcgId = k.fcgId) : (p.store k').Counted where
  inflight := by
    rw [Process.store, h.inflight]
    simp [Tree.store]
  ids := by
    intro j hj
    have hfind : (p.scFcgiSocks.find k'.fcgId).isSome := by
      rw [hid, Tree.find_of_mem hk]
      rfl
    rcases (Tree.mem_store hfind).mp hj with rfl | ⟨hj, -⟩
    · rw [hid]
      exact h.ids k hk
    · exact h.ids j hj

/-- The id of a new connection is not in use. -/
theorem Process.Counted.fresh (h : p.Counted) : p.scFcgiSocks.find (p.proxyFcgId + 1) = none := by
  rw [Tree.find_eq_none]
  intro hmem
  obtain ⟨k, hk, hid⟩ := List.mem_map.mp hmem
  exact ne_next_of_near (h.ids k hk) hid

theorem Process.Counted.accept (h : p.Counted) (hnear : p.IdsNear) (a : AcceptEnv) :
    (fcgiAccept false a p).Counted := by
  unfold fcgiAccept
  dsimp only
  rw [if_neg Bool.false_ne_true]
  split
  · exact ⟨h.inflight, h.ids⟩
  · exact ⟨h.inflight, h.ids⟩
  split
  · exact ⟨by simp [fcgiInflightDec, h.inflight], h.ids⟩
  split
  · -- the id is lost, the count is not
    exact ⟨by simp [fcgiInflightDec, h.inflight], hnear⟩
  · constructor
    · rw [Tree.insert_of_none h.fresh]
      simp [h.inflight]
    · intro k hk
      rcases Tree.mem_of_insert hk with rfl | hk
      · simp
      · exact hnear k hk

/-- With no connection left to free, a reset leaves the counter alone. -/
theorem Process.Counted.reset (h : p.Counted) (hnone : p.scFcgiSocks.members = []) :
    (configGetreset p).Counted := by
  obtain ⟨q, hq, ⟨hinflight, -⟩, hempty⟩ := configGetreset_rule
    (I := fun q => q.fcgiInflight = p.fcgiInflight ∧ q.scFcgiSocks.members = [])
    (by
      intro s s' hs hcase
      cases hcase with
      | picks _ _ _ => exact hs
      | aborts _ _ _ _ hk _ _ _ => rw [hs.2] at hk; cases hk
      | breaks _ _ _ _ hk _ _ => rw [hs.2] at hk; cases hk
      | frees _ _ hk _ => rw [hs.2] at hk; cases hk) (p := p) ⟨rfl, hnone⟩
  have hzero : p.fcgiInflight = 0 := by rw [h.inflight, hnone]; rfl
  rw [hq]
  constructor
  · simp [hinflight, hzero, hempty]
  · simp [hempty]

/-- A reset finds no connection, and no connection stays open while `2^31` ids are given. -/
def Accountable (p : Process) : ProcEvent → Prop
  | .acceptable _ => p.IdsNear
  | .imsg .ctlReset => p.scFcgiSocks.members = []
  | _ => True

instance (p : Process) : ∀ e : ProcEvent, Decidable (Accountable p e)
  | .acceptable _ => inferInstanceAs (Decidable p.IdsNear)
  | .imsg .ctlReset => inferInstanceAs (Decidable (_ = _))
  | .imsg (.cfgSrv _) | .imsg (.cfgSock _) | .imsg (.cfgDone _) | .imsg .ctlStart | .pauseOver _
  | .sock _ _ => inferInstanceAs (Decidable True)

theorem counted_handle (h : p.Counted) {e : ProcEvent} (he : Accountable p e) :
    (p.handle e).Counted := by
  cases e with
  | acceptable a =>
    rw [Process.handle]
    split
    · exact h.accept he a
    · exact h
  | pauseOver a =>
    rw [Process.handle]
    split
    · exact ⟨h.inflight, h.ids⟩
    · exact h
  | sock id e =>
    rw [Process.handle, Process.onSock]
    cases hfind : p.scFcgiSocks.find id with
    | none => exact h
    | some k =>
      obtain ⟨hk, -⟩ := Tree.find_some hfind
      dsimp only
      split
      · exact h.fcgiError hk rfl
      · exact h.store hk rfl
  | imsg m =>
    cases m with
    | ctlReset => exact h.reset he
    | cfgSrv _ | cfgSock _ | cfgDone _ | ctlStart => exact ⟨h.inflight, h.ids⟩

end Count

/-- **Connections are accounted for** as long as no reset finds one open (and none stays open while
`2^31` ids are given): the counter is the number of connections, and so `accept_reserve` refuses for
the sake of connections that exist only. -/
theorem inflight_counts_connections (hostNameMax pathMax : Nat) {es : List ProcEvent}
    (hes : Steps Process.handle Accountable (Process.new hostNameMax pathMax) es) :
    let p := (Process.new hostNameMax pathMax).run es
    p.fcgiInflight = p.scFcgiSocks.members.length ∧
    ∀ a : AcceptEnv, a.getdtablecount + fdReserve + p.scFcgiSocks.members.length < a.getdtablesize →
      acceptReserve a p.fcgiInflight = a.accept4 := by
  intro p
  have hnew : (Process.new hostNameMax pathMax).Counted := ⟨rfl, fun _ hk => by cases hk⟩
  have h : p.Counted := invariant (I := Process.Counted)
    (fun _ _ h he => counted_handle h he) hnew hes
  refine ⟨h.inflight, fun a ha => ?_⟩
  rw [acceptReserve, if_neg]
  rw [h.inflight]
  omega

/-- A connection comes and goes, and then a reset. -/
theorem closed_connection_forgotten :
    let es := connectEvents ++ [.sock 1 .error, .imsg .ctlReset]
    Steps Process.handle Accountable (Process.new 255 1024) es ∧
      ((Process.new 255 1024).run es).fcgiInflight = 0 := by
  intro es
  have hes : Steps Process.handle Accountable (Process.new 255 1024) es := by decide
  exact ⟨hes, (inflight_counts_connections 255 1024 hes).1⟩

/-- A reset with one connection open: it is gone, and still counted. With a limit of ten descriptors
and four in use, a new connection is refused. -/
theorem purged_connection_still_counted :
    let p := (Process.new 255 1024).run (connectEvents ++ [.imsg .ctlReset])
    p.scFcgiSocks.members = [] ∧ p.fcgiInflight = 1 ∧
      acceptReserve ⟨4, 10, .ok 4, true, true, [], []⟩ p.fcgiInflight = .error .emfile := by
  decide

/-! ## `sc_evsock` and `sc_evpause` -/

/-- The messages a proxy has not taken yet come in the order of `parent_configure`: what is
configured is not configured again before it is reset. -/
def Proto : Bool → List Imsg → Prop
  | _, [] => True
  | launched, .ctlStart :: ms => Proto launched ms
  | _, .ctlReset :: ms => Proto false ms
  | launched, .cfgSrv _ :: ms => launched = false ∧ Proto false ms
  | launched, .cfgSock _ :: ms => launched = false ∧ Proto false ms
  | launched, .cfgDone _ :: ms => launched = false ∧ Proto true ms

theorem Proto.append {launched : Bool} {ms ms' : List Imsg} (h : Proto launched ms)
    (h' : ∀ l, Proto l ms') : Proto launched (ms ++ ms') := by
  induction ms generalizing launched with
  | nil => exact h' launched
  | cons m ms ih =>
    cases m with
    | ctlStart => exact ih h
    | ctlReset => exact ih h
    | cfgSrv _ => exact ⟨h.1, ih h.2⟩
    | cfgSock _ => exact ⟨h.1, ih h.2⟩
    | cfgDone _ => exact ⟨h.1, ih h.2⟩

theorem proto_roundMsgs (confs : List ProxyConfig) (fd round : Nat) :
    Proto false (roundMsgs confs fd round) := by
  unfold roundMsgs
  induction confs with
  | nil => exact ⟨rfl, rfl, trivial⟩
  | cons conf confs ih => exact ⟨rfl, ih⟩

/-- A process that listens, or that is being configured. -/
structure Process.Listens (p : Process) : Prop where
  armed : p.launched = true → p.evsock = true
  paused : p.evpause = false

/-- What stays as it is while nothing happens to the events of the process. -/
theorem Process.Listens.of_eq {p q : Process} (h : p.Listens) (hlaunched : q.launched = p.launched)
    (hevsock : q.evsock = p.evsock) (hevpause : q.evpause = p.evpause) : q.Listens :=
  ⟨fun hl => hevsock.trans (h.armed (hlaunched.symm.trans hl)), hevpause.trans h.paused⟩

/-- A proxy whose events and messages are in order. -/
structure Peer.Listens (peer : Peer) : Prop where
  proc : peer.proc.Listens
  proto : Proto peer.proc.launched peer.inbox

theorem reset_unlaunched {p : Process} (h : p.evpause = false) :
    (configGetreset p).launched = false ∧ (configGetreset p).evpause = false := by
  obtain ⟨q, hq, hpause, -⟩ := configGetreset_rule (I := fun q => q.evpause = false)
    (by
      intro s s' hs hcase
      cases hcase <;> exact hs) (p := p) h
  rw [hq]
  refine ⟨rfl, ?_⟩
  unfold purgeConfig
  split
  · rfl
  · exact hpause

theorem Peer.Listens.receive {peer : Peer} (h : peer.Listens) : peer.receive.Listens := by
  obtain ⟨hproc, hproto⟩ := h
  unfold Peer.receive
  cases hin : peer.inbox with
  | nil => exact ⟨hproc, hproto⟩
  | cons m rest =>
    rw [hin] at hproto
    cases m with
    | ctlStart => exact ⟨hproc, hproto⟩
    | ctlReset =>
      obtain ⟨hlaunched, hpause⟩ := reset_unlaunched hproc.paused
      refine ⟨⟨fun hl => ?_, hpause⟩, ?_⟩
      · exact absurd (hlaunched.symm.trans hl) (by decide)
      · simp only [proxyDispatchParent, hlaunched]
        exact hproto
    | cfgSrv conf =>
      obtain ⟨hlaunched, hrest⟩ := hproto
      exact ⟨hproc.of_eq rfl rfl rfl, by rwa [← hlaunched] at hrest⟩
    | cfgSock fd =>
      obtain ⟨hlaunched, hrest⟩ := hproto
      refine ⟨⟨fun hl => ?_, rfl⟩, by rwa [← hlaunched] at hrest⟩
      exact absurd (hlaunched.symm.trans hl) (by decide)
    | cfgDone round => exact ⟨⟨fun _ => rfl, hproc.paused⟩, hproto.2⟩

/-- There are descriptors to spare. -/
def Spare (a : AcceptEnv) (p : Process) : Prop :=
  (a.getdtablecount : Int) + fdReserve + p.fcgiInflight < a.getdtablesize ∧
    a.accept4 ≠ .error .enfile ∧ a.accept4 ≠ .error .emfile

theorem Process.Listens.accept {p : Process} (h : p.Listens) {a : AcceptEnv} (ha : Spare a p) :
    (fcgiAccept false a p).Listens ∧ (fcgiAccept false a p).launched = p.launched := by
  obtain ⟨hroom, hnfile, hmfile⟩ := ha
  have hreserve : acceptReserve a p.fcgiInflight = a.accept4 := by
    rw [acceptReserve, if_neg (by omega)]
  have hpause : eventAddTimer none p.evpause = p.evpause := by simp [eventAddTimer]
  unfold fcgiAccept
  dsimp only
  rw [if_neg Bool.false_ne_true, hreserve, hpause]
  split
  · exact ⟨h.of_eq rfl rfl rfl, rfl⟩
  · rename_i err hother haccept
    -- the two errors that are left
    cases err with
    | enfile => exact absurd haccept hnfile
    | emfile => exact absurd haccept hmfile
    | other => exact absurd rfl hother
  split
  · exact ⟨h.of_eq rfl rfl rfl, rfl⟩
  split <;> exact ⟨h.of_eq rfl rfl rfl, rfl⟩

/-- No process runs out of descriptors. -/
def Roomy (d : Daemon) : DaemonEvent → Prop
  | .acceptable i a => ∀ peer ∈ d.peers[i]?, peer.proc.evsock = true → Spare a peer.proc
  | _ => True

instance (a : AcceptEnv) (p : Process) : Decidable (Spare a p) :=
  inferInstanceAs (Decidable (_ ∧ _ ∧ _))

instance (d : Daemon) : ∀ e : DaemonEvent, Decidable (Roomy d e)
  | .acceptable i a => inferInstanceAs (Decidable (∀ peer ∈ d.peers[i]?, _ = _ → Spare a peer.proc))
  | .sighup _ _ | .receive _ | .takeAck _ | .pauseOver _ _ | .sock _ _ _ =>
      inferInstanceAs (Decidable True)

def Daemon.Listens (d : Daemon) : Prop := Everyone (fun _ => Peer.Listens) d.peers

theorem Daemon.Listens.send {d : Daemon} (h : d.Listens) {ms : List Imsg}
    (hms : ∀ l, Proto l ms) : Everyone (fun _ => Peer.Listens) (d.peers.map (Peer.send ms)) :=
  Everyone.map h fun _ _ hpeer => ⟨hpeer.proc, hpeer.proto.append hms⟩

theorem listens_handle {d : Daemon} (h : d.Listens) {e : DaemonEvent} (he : Roomy d e) :
    (d.handle e).Listens := by
  cases e with
  | sighup file fd =>
    rw [Daemon.handle, parentReload_eq]
    split
    · exact h.send fun _ => proto_roundMsgs _ _ _
    · exact h
  | receive i => exact Everyone.modify h (fun _ _ hpeer => hpeer.receive) fun _ _ _ hpeer => hpeer
  | takeAck i =>
    exact (takeAck_everyone h (fun _ _ hpeer => ⟨hpeer.proc, hpeer.proto⟩)
      (fun _ hpeer => ⟨hpeer.proc, hpeer.proto.append fun _ => trivial⟩) i).2
  | acceptable i a =>
    intro j peer hj
    rw [Daemon.handle, Daemon.proxy, List.getElem?_modify] at hj
    obtain ⟨peer', hj', rfl⟩ := Option.map_eq_some_iff.mp hj
    have hpeer := h j peer' hj'
    split
    · subst j
      rw [Process.handle]
      split
      · rename_i hsock
        obtain ⟨hproc, hlaunched⟩ := hpeer.proc.accept (he peer' hj' hsock)
        exact ⟨hproc, by rw [hlaunched]; exact hpeer.proto⟩
      · exact hpeer
    · exact hpeer
  | pauseOver i a =>
    -- there is no pause
    refine Everyone.modify h (fun _ _ hpeer => ?_) fun _ _ _ hpeer => hpeer
    rw [Process.handle, hpeer.proc.paused]
    exact hpeer
  | sock i id e =>
    refine Everyone.modify h (fun peer _ hpeer => ?_) fun _ _ _ hpeer => hpeer
    rw [Process.handle, Process.onSock]
    cases peer.proc.scFcgiSocks.find id with
    | none => exact hpeer
    | some k =>
      dsimp only
      split <;> exact ⟨hpeer.proc.of_eq rfl rfl rfl, hpeer.proto⟩

theorem listens_boot {hostNameMax pathMax fd : Nat} {file : ConfFile} {d : Daemon}
    (h : boot hostNameMax pathMax file fd = some d) : d.Listens := by
  rw [boot_eq h]
  exact Everyone.replicate fun _ _ =>
    ⟨⟨fun hl => (by cases hl), rfl⟩, proto_roundMsgs _ _ _⟩

/-- **Nobody goes deaf while there are descriptors.** In every state of a run in which no process
runs out of them, a process that is configured listens or is to listen again, and when a pause is
over it listens. -/
theorem configured_process_listens {hostNameMax pathMax fd : Nat} {file : ConfFile} {d : Daemon}
    (hboot : boot hostNameMax pathMax file fd = some d) {es : List DaemonEvent}
    (hes : Steps Daemon.handle Roomy d es) :
    ∀ peer ∈ (d.run es).peers, peer.proc.launched = true →
      (peer.proc.evsock = true ∨ peer.proc.evpause = true) ∧
      ∀ a, peer.proc.evpause = true → (peer.proc.handle (.pauseOver a)).evsock = true := by
  intro peer hpeer hlaunched
  have h : (d.run es).Listens := invariant (I := Daemon.Listens)
    (fun _ _ h he => listens_handle h he) (listens_boot hboot) hes
  have hproc := (Everyone.mem h hpeer).proc
  refine ⟨.inl (hproc.armed hlaunched), fun a hpause => ?_⟩
  rw [hproc.paused] at hpause
  cases hpause

/-- The first of two processes is configured and accepts a connection. -/
theorem accepting_process_listens :
    let es := takes 3 0 ++ [.acceptable 0 ⟨8, 1024, .ok 9, true, true, [], []⟩]
    Steps Daemon.handle Roomy twoPeers es ∧
      ((twoPeers.run es).peers.map fun peer => peer.proc.launched) = [true, false] ∧
      ∀ peer ∈ (twoPeers.run es).peers, peer.proc.launched = true →
        (peer.proc.evsock = true ∨ peer.proc.evpause = true) ∧
        ∀ a, peer.proc.evpause = true → (peer.proc.handle (.pauseOver a)).evsock = true := by
  intro es
  have hes : Steps Daemon.handle Roomy twoPeers es := by decide
  exact ⟨hes, by decide, configured_process_listens twoPeers_boot hes⟩

/-- A process finds no descriptor to spare, and pauses; then the pause is over, and neither of its
events is armed. -/
theorem deaf_after_pause :
    let a : AcceptEnv := ⟨1019, 1024, .ok 9, true, true, [], []⟩
    let s := twoPeers.run (takes 3 0 ++ [.acceptable 0 a, .pauseOver 0 a])
    (s.peers.map fun peer => (peer.proc.launched, peer.proc.evsock, peer.proc.evpause))
      = [(true, false, false), (false, false, false)] := by
  decide

end Galileo
