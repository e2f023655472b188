import Galileo.Lib.Peers
import Galileo.Model.Daemon
import Galileo.Proof.Purge

/-!
# Reloading

Two things the parent and its proxies are to agree on, over FIFO channels and with any number of
signals in flight: *what* the configuration is, and *when* all have it.

The first goes well. A proxy's list is what the messages it has taken say, so taking the messages it
has not taken yet into account (`replay`) its list is always that of the last configuration that was
sent; and the only messages that can stand behind the last `IMSG_CFG_DONE` do not touch it.

The second does not. The parent counts answers without knowing which round they answer, and it
counts down from `sc_prefork`, which is the number of processes only as long as no configuration
says something else. When every round is over before the next one starts, and the files agree with
the number of processes, the count is right (`Quiet`).
-/

set_option autoImplicit false

namespace Galileo

open Lib Lib.Run

variable {hostNameMax pathMax fd round i r : Nat} {peer : Peer} {d : Daemon} {file : ConfFile}
  {e : ProcEvent}

/-! ## What the parent sends -/

/-- `parse_config` succeeds, started from an empty list. -/
def ConfFile.valid (file : ConfFile) : Bool := !file.errors && !file.stored.isEmpty

/-- The messages of a configuration. -/
def roundMsgs (confs : List ProxyConfig) (fd round : Nat) : List Imsg :=
  confs.map .cfgSrv ++ [.cfgSock fd, .cfgDone round]

def Peer.send (ms : List Imsg) (peer : Peer) : Peer := { peer with inbox := peer.inbox ++ ms }

theorem Peer.send_send (ms ms' : List Imsg) (peer : Peer) :
    (peer.send ms).send ms' = peer.send (ms ++ ms') := by
  simp only [Peer.send, List.append_assoc]

theorem procCompose_eq (d : Daemon) (m : Imsg) :
    d.procCompose m = { d with peers := d.peers.map (Peer.send [m]) } := rfl

theorem map_send (peers : List Peer) (ms ms' : List Imsg) :
    (peers.map (Peer.send ms)).map (Peer.send ms') = peers.map (Peer.send (ms ++ ms')) := by
  rw [List.map_map]
  exact List.map_congr_left fun peer _ => peer.send_send ms ms'

theorem foldl_procCompose (confs : List ProxyConfig) (d : Daemon) :
    confs.foldl (fun d conf => d.procCompose (.cfgSrv conf)) d
      = { d with peers := d.peers.map (Peer.send (confs.map .cfgSrv)) } := by
  induction confs generalizing d with
  | nil =>
    have hid : (Peer.send [] : Peer → Peer) = id := funext fun peer => by simp [Peer.send]
    simp [hid]
  | cons conf confs ih =>
    rw [List.foldl_cons, ih, procCompose_eq, map_send]
    rfl

theorem parentConfigure_eq (fd : Nat) (d : Daemon) :
    parentConfigure fd d =
      { parent := { d.parent with
          scProxies := []
          scReload := d.parent.scPrefork
          round := d.parent.round + 1 }
        peers := d.peers.map
          (Peer.send (roundMsgs d.parent.scProxies fd (d.parent.round + 1))) } := by
  unfold parentConfigure
  rw [foldl_procCompose]
  simp only [procCompose_eq, map_send, roundMsgs, Parent.configPurge, List.append_assoc,
    List.cons_append, List.nil_append]

/-- A reload, in one line for each outcome. -/
theorem parentReload_eq (file : ConfFile) (fd : Nat) (d : Daemon) :
    parentReload file fd d =
      if file.valid then
        { parent := { d.parent with
            scProxies := []
            scPrefork := file.prefork.getD d.parent.scPrefork
            scReload := file.prefork.getD d.parent.scPrefork
            round := d.parent.round + 1 }
          peers := d.peers.map
            (Peer.send (.ctlReset :: roundMsgs file.stored fd (d.parent.round + 1))) }
      else
        { parent := { d.parent with
            scProxies := file.stored
            scPrefork := file.prefork.getD d.parent.scPrefork }
          peers := d.peers } := by
  simp only [parentReload, parseConfig, Parent.configPurge, List.nil_append]
  cases hvalid : (!file.errors && !file.stored.isEmpty) with
  | false => simp [ConfFile.valid, hvalid]
  | true =>
    simp only [ConfFile.valid, hvalid, if_true, parentConfigure_eq, procCompose_eq, map_send,
      List.singleton_append]

/-- The outcomes of an answer the parent takes. -/
inductive AckCase (d : Daemon) (i : Nat) : Daemon → Prop
  | nothing : AckCase d i d
  | late {peer : Peer} {r : Nat} {rest : List Nat} (hpeer : d.peers[i]? = some peer)
      (hout : peer.outbox = r :: rest) (hreload : d.parent.scReload = 0) :
      AckCase d i
        { parent := { d.parent with log := d.parent.log ++ [.acked i r] }
          peers := d.peers.modify i fun peer => { peer with outbox := rest } }
  | counted {peer : Peer} {r : Nat} {rest : List Nat} (hpeer : d.peers[i]? = some peer)
      (hout : peer.outbox = r :: rest) (hreload : 1 < d.parent.scReload) :
      AckCase d i
        { parent := { d.parent with
            scReload := d.parent.scReload - 1
            log := d.parent.log ++ [.acked i r] }
          peers := d.peers.modify i fun peer => { peer with outbox := rest } }
  | last {peer : Peer} {r : Nat} {rest : List Nat} (hpeer : d.peers[i]? = some peer)
      (hout : peer.outbox = r :: rest) (hreload : d.parent.scReload = 1) :
      AckCase d i
        { parent := { d.parent with
            scReload := 0
            log := d.parent.log ++ [.acked i r] ++ [.started d.parent.round] }
          peers := (d.peers.modify i fun peer => { peer with outbox := rest }).map
            (Peer.send [.ctlStart]) }

theorem takeAck_cases (d : Daemon) (i : Nat) : AckCase d i (d.takeAck i) := by
  unfold Daemon.takeAck
  cases hpeer : d.peers[i]? with
  | none => exact .nothing
  | some peer =>
    dsimp only
    cases hout : peer.outbox with
    | nil => exact .nothing
    | cons r rest =>
      dsimp only
      unfold parentConfigureDone
      dsimp only
      by_cases h0 : d.parent.scReload = 0
      · rw [if_pos h0]
        exact .late hpeer hout h0
      · rw [if_neg h0]
        by_cases h1 : d.parent.scReload = 1
        · rw [if_pos (by omega), h1]
          exact .last hpeer hout h1
        · rw [if_neg (by omega)]
          exact .counted hpeer hout (by omega)

/-- An answer changes an outbox, and everybody may be told to start. -/
theorem takeAck_everyone {P : Peer → Prop} (h : Everyone (fun _ => P) d.peers)
    (hout : ∀ peer rest, P peer → P { peer with outbox := rest })
    (hstart : ∀ peer, P peer → P (peer.send [.ctlStart])) (i : Nat) :
    (d.takeAck i).parent.round = d.parent.round ∧ Everyone (fun _ => P) (d.takeAck i).peers := by
  have htaken (rest : List Nat) : Everyone (fun _ => P)
      (d.peers.modify i fun peer => { peer with outbox := rest }) :=
    Everyone.modify h (fun peer _ => hout peer rest) fun _ _ _ hpeer => hpeer
  have hcase := takeAck_cases d i
  generalize d.takeAck i = d' at hcase ⊢
  cases hcase with
  | nothing => exact ⟨rfl, h⟩
  | late _ _ _ => exact ⟨rfl, htaken _⟩
  | counted _ _ _ => exact ⟨rfl, htaken _⟩
  | last _ _ _ => exact ⟨rfl, (htaken _).map fun _ => hstart⟩

/-! ## What the proxies do -/

/-- What a process does by itself leaves its configuration and its socket alone. -/
theorem handle_own {p : Process} (he : ∀ m, e ≠ .imsg m) :
    (p.handle e).scProxies = p.scProxies ∧ (p.handle e).launched = p.launched ∧
      (p.handle e).scSockFd = p.scSockFd := by
  have haccept (timeout : Bool) (a : AcceptEnv) (p : Process) :
      (fcgiAccept timeout a p).scProxies = p.scProxies ∧
        (fcgiAccept timeout a p).launched = p.launched ∧
        (fcgiAccept timeout a p).scSockFd = p.scSockFd := by
    unfold fcgiAccept
    dsimp only
    split
    · exact ⟨rfl, rfl, rfl⟩
    split
    · exact ⟨rfl, rfl, rfl⟩
    · exact ⟨rfl, rfl, rfl⟩
    split
    · exact ⟨rfl, rfl, rfl⟩
    split <;> exact ⟨rfl, rfl, rfl⟩
  cases e with
  | acceptable a =>
    rw [Process.handle]
    split
    · exact haccept false a p
    · exact ⟨rfl, rfl, rfl⟩
  | pauseOver a =>
    rw [Process.handle]
    split
    · exact haccept true a _
    · exact ⟨rfl, rfl, rfl⟩
  | sock id e =>
    rw [Process.handle, Process.onSock]
    cases p.scFcgiSocks.find id with
    | none => exact ⟨rfl, rfl, rfl⟩
    | some k =>
      dsimp only
      split <;> exact ⟨rfl, rfl, rfl⟩
  | imsg m => exact absurd rfl (he m)

/-- What a message does to a list of proxies. -/
def Imsg.replay (confs : List ProxyConfig) : Imsg → List ProxyConfig
  | .cfgSrv conf => confs ++ [conf]
  | .ctlReset => []
  | _ => confs

def Process.confs (p : Process) : List ProxyConfig := p.scProxies.map Proxy.prConf

variable {confs : List ProxyConfig}

theorem proxyDispatchParent_confs (m : Imsg) (p : Process) :
    (proxyDispatchParent m p).1.confs = m.replay p.confs := by
  cases m with
  | cfgSrv conf => simp [proxyDispatchParent, configGetproxy, Process.confs, Imsg.replay]
  | cfgSock fd => rfl
  | cfgDone round => rfl
  | ctlStart => rfl
  | ctlReset =>
    obtain ⟨q, hq, -, -⟩ := configGetreset_rule (I := fun _ => True)
      (fun _ _ _ _ => trivial) (p := p) trivial
    rw [proxyDispatchParent, hq]
    rfl

/-! ## Everybody gets the last configuration -/

/-- Only `IMSG_CTL_START` can stand behind the last `IMSG_CFG_DONE`. -/
def Settled (round : Nat) (inbox : List Imsg) : Prop :=
  (∀ m ∈ inbox, m = .ctlStart) ∨
    ∃ l₁ l₂, inbox = l₁ ++ .cfgDone round :: l₂ ∧ ∀ m ∈ l₂, m = .ctlStart

/-- A proxy that has, or is going to have, these proxies. -/
structure Converges (confs : List ProxyConfig) (round : Nat) (peer : Peer) : Prop where
  settled : Settled round peer.inbox
  replay : peer.inbox.foldl Imsg.replay peer.proc.confs = confs

theorem foldl_replay_srv (confs acc : List ProxyConfig) :
    (confs.map Imsg.cfgSrv).foldl Imsg.replay acc = acc ++ confs := by
  induction confs generalizing acc with
  | nil => simp
  | cons conf confs ih => simp [Imsg.replay, ih]

/-- A whole configuration is sent. -/
theorem Converges.reload {confs confs' : List ProxyConfig} (h : Converges confs round peer)
    (fd round' : Nat) :
    Converges confs' round' (peer.send (.ctlReset :: roundMsgs confs' fd round')) where
  settled := by
    refine .inr ⟨peer.inbox ++ .ctlReset :: (confs'.map .cfgSrv ++ [.cfgSock fd]), [], ?_, by simp⟩
    simp [Peer.send, roundMsgs]
  replay := by
    simp only [Peer.send, List.foldl_append, List.foldl_cons, h.replay, roundMsgs, Imsg.replay,
      foldl_replay_srv, List.nil_append, List.foldl_nil]

theorem Converges.start (h : Converges confs round peer) :
    Converges confs round (peer.send [.ctlStart]) where
  settled := by
    rcases h.settled with hall | ⟨l₁, l₂, heq, hl₂⟩
    · refine .inl fun m hm => ?_
      rcases List.mem_append.mp hm with hm | hm
      · exact hall m hm
      · exact List.mem_singleton.mp hm
    · refine .inr ⟨l₁, l₂ ++ [.ctlStart], by simp [Peer.send, heq], fun m hm => ?_⟩
      rcases List.mem_append.mp hm with hm | hm
      · exact hl₂ m hm
      · exact List.mem_singleton.mp hm
  replay := by
    rw [Peer.send, List.foldl_append, h.replay]
    rfl

theorem Settled.tail {m : Imsg} {inbox : List Imsg} (h : Settled round (m :: inbox)) :
    Settled round inbox := by
  rcases h with hall | ⟨l₁, l₂, heq, hl₂⟩
  · exact .inl fun m' hm' => hall m' (by simp [hm'])
  · cases l₁ with
    | nil =>
      cases heq
      exact .inl hl₂
    | cons m' l₁ =>
      cases heq
      exact .inr ⟨l₁, l₂, rfl, hl₂⟩

theorem Converges.receive (h : Converges confs round peer) :
    Converges confs round peer.receive := by
  unfold Peer.receive
  cases hin : peer.inbox with
  | nil => exact h
  | cons m rest =>
    obtain ⟨hsettled, hreplay⟩ := h
    rw [hin] at hsettled hreplay
    exact ⟨hsettled.tail, by rw [proxyDispatchParent_confs]; exact hreplay⟩

theorem Converges.own (h : Converges confs round peer) (he : ∀ m, e ≠ .imsg m) :
    Converges confs round { peer with proc := peer.proc.handle e } where
  settled := h.settled
  replay := by
    rw [Process.confs, (handle_own he).1]
    exact h.replay

/-- Every proxy has, or is going to have, these proxies. -/
def Daemon.Converges (confs : List ProxyConfig) (d : Daemon) : Prop :=
  Everyone (fun _ => Galileo.Converges confs d.parent.round) d.peers

/-- The configuration of the last reload that succeeded. -/
def lastConfig (confs : List ProxyConfig) : DaemonEvent → List ProxyConfig
  | .sighup file _ => if file.valid then file.stored else confs
  | _ => confs

theorem converges_proxy (h : d.Converges confs) (i : Nat) (he : ∀ m, e ≠ .imsg m) :
    (d.proxy i e).Converges confs :=
  Everyone.modify h (fun _ _ hpeer => hpeer.own he) fun _ _ _ hpeer => hpeer

theorem converges_handle (h : d.Converges confs) (e : DaemonEvent) :
    (d.handle e).Converges (lastConfig confs e) := by
  cases e with
  | sighup file fd =>
    rw [Daemon.handle, parentReload_eq, lastConfig]
    split
    · exact Everyone.map h fun _ _ hpeer => hpeer.reload fd _
    · exact h
  | receive i =>
    exact Everyone.modify h (fun _ _ hpeer => hpeer.receive) fun _ _ _ hpeer => hpeer
  | takeAck i =>
    obtain ⟨hround, hall⟩ := takeAck_everyone h
      (fun _ _ hpeer => ⟨hpeer.settled, hpeer.replay⟩) (fun _ => Converges.start) i
    rw [Daemon.handle, Daemon.Converges, hround]
    exact hall
  | acceptable i a => exact converges_proxy h i fun _ => ProcEvent.noConfusion
  | pauseOver i a => exact converges_proxy h i fun _ => ProcEvent.noConfusion
  | sock i id e => exact converges_proxy h i fun _ => ProcEvent.noConfusion

theorem converges_run (h : d.Converges confs) (es : List DaemonEvent) :
    (d.run es).Converges (es.foldl lastConfig confs) := by
  induction es generalizing d confs with
  | nil => exact h
  | cons e es ih => exact ih (converges_handle h e)

/-! ## Startup -/

theorem boot_eq (h : boot hostNameMax pathMax file fd = some d) :
    d = { parent := ⟨[], file.prefork.getD proxyNumproc, file.prefork.getD proxyNumproc, 1, []⟩
          peers := List.replicate (file.prefork.getD proxyNumproc)
            ⟨Process.new hostNameMax pathMax, roundMsgs file.stored fd 1, []⟩ } := by
  unfold boot parseConfig at h
  dsimp only at h
  split at h
  · cases h
  · rename_i p heq
    cases h
    obtain rfl : _ = p := (Prod.mk.inj heq).2
    rw [parentConfigure_eq, List.map_replicate]
    rfl

/-- There is at least one process. -/
theorem prefork_pos (file : ConfFile) : 0 < file.prefork.getD proxyNumproc := by
  have h := file.range
  cases hp : file.prefork with
  | none => decide
  | some n =>
    rw [hp, Option.all_some, Bool.and_eq_true] at h
    simpa using h.1

theorem converges_boot (h : boot hostNameMax pathMax file fd = some d) :
    d.Converges file.stored := by
  rw [boot_eq h]
  refine Everyone.replicate fun i _ => ⟨?_, ?_⟩
  · exact .inr ⟨file.stored.map .cfgSrv ++ [.cfgSock fd], [], by simp [roundMsgs], by simp⟩
  · simp only [roundMsgs, List.foldl_append, foldl_replay_srv]
    rfl

/-- **The configuration converges.** After any sequence of reloads, whatever their outcomes, and
however the proxies take their messages: a proxy that has taken the `IMSG_CFG_DONE` of the last
round has exactly the proxies of the last configuration that was loaded, in its order; and a reload
that fails changes nothing for any proxy. -/
theorem configuration_converges {hostNameMax pathMax fd : Nat} {file : ConfFile} {d : Daemon}
    (hboot : boot hostNameMax pathMax file fd = some d) (es : List DaemonEvent) :
    let s := d.run es
    (∀ peer ∈ s.peers, .cfgDone s.parent.round ∉ peer.inbox →
      peer.proc.scProxies.map Proxy.prConf = es.foldl lastConfig file.stored) ∧
    ∀ (file' : ConfFile) (fd' : Nat), file'.valid = false →
      (s.handle (.sighup file' fd')).peers = s.peers := by
  intro s
  refine ⟨fun peer hpeer hdone => ?_, fun file' fd' hfail => ?_⟩
  · have hconv : Converges (es.foldl lastConfig file.stored) s.parent.round peer :=
      Everyone.mem (converges_run (converges_boot hboot) es) hpeer
    -- what is left to take does not touch the list
    have hrest : ∀ m ∈ peer.inbox, m = .ctlStart := by
      rcases hconv.settled with hall | ⟨l₁, l₂, heq, -⟩
      · exact hall
      · exact absurd (by rw [heq]; simp) hdone
    rw [← hconv.replay]
    generalize peer.inbox = inbox at hrest
    induction inbox with
    | nil => rfl
    | cons m inbox ih =>
      rw [hrest m (by simp)]
      exact ih fun m hm => hrest m (by simp [hm])
  · rw [Daemon.handle, parentReload_eq, if_neg (by simp [hfail])]

/-- A file with one proxy. -/
def oneProxy (host : Bytes) (prefork : Option Nat)
    (range : (prefork.all fun n => 0 < n && n ≤ procMaxInstances) = true) : ConfFile :=
  ⟨[⟨host, [], [], host, [], true, false, false, false⟩], prefork, range, false⟩

/-- Two processes, which have been sent the proxy `h`. -/
def twoPeers : Daemon :=
  (boot 255 1024 (oneProxy [104] (some 2) rfl) 3).getD ⟨⟨[], 0, 0, 0, []⟩, []⟩

theorem twoPeers_boot : boot 255 1024 (oneProxy [104] (some 2) rfl) 3 = some twoPeers := rfl

/-- A process takes `n` messages. -/
def takes (n i : Nat) : List DaemonEvent := List.replicate n (.receive i)

/-- A reload replaces the proxy `h` by the proxy `g`, and only the first process has taken
notice. -/
theorem first_process_has_new_proxy :
    let s := twoPeers.run (takes 3 0 ++ .sighup (oneProxy [103] none rfl) 4 :: takes 4 0)
    (s.peers.map fun peer => (decide (.cfgDone s.parent.round ∈ peer.inbox),
        peer.proc.scProxies.map fun pr => pr.prConf.host)) = [(false, [[103]]), (true, [])] ∧
    ∀ peer ∈ s.peers, .cfgDone s.parent.round ∉ peer.inbox →
      peer.proc.scProxies.map Proxy.prConf = (oneProxy [103] none rfl).stored :=
  ⟨by decide, (configuration_converges twoPeers_boot _).1⟩

/-! ## When all have it -/

/-- The rounds the parent has not had the proxy's answer to. -/
def Peer.due (peer : Peer) : List Nat :=
  peer.outbox ++ peer.inbox.filterMap fun
    | .cfgDone round => some round
    | _ => none

variable {due : List Nat}

theorem due_receive (peer : Peer) : peer.receive.due = peer.due := by
  unfold Peer.receive
  cases hin : peer.inbox with
  | nil => rfl
  | cons m rest =>
    cases m <;> simp [Peer.due, hin, proxyDispatchParent]

theorem due_send (peer : Peer) (ms : List Imsg) :
    (peer.send ms).due = peer.due ++ ms.filterMap fun
      | .cfgDone round => some round
      | _ => none := by
  simp [Peer.due, Peer.send]

theorem filterMap_roundMsgs (confs : List ProxyConfig) (fd round : Nat) :
    ((roundMsgs confs fd round).filterMap fun
      | .cfgDone round => some round
      | _ => none) = [round] := by
  simp [roundMsgs, List.filterMap_append, List.filterMap_map]

/-- Every round is over before the next one starts, and the files agree with the number of
processes. -/
def Quiet (d : Daemon) : DaemonEvent → Prop
  | .sighup file _ => (file.prefork = none ∨ file.prefork = some d.peers.length) ∧
      (file.valid = true → d.parent.scReload = 0)
  | _ => True

instance : ∀ (d : Daemon) (e : DaemonEvent), Decidable (Quiet d e)
  | _, .sighup _ _ => inferInstanceAs (Decidable (_ ∧ _))
  | _, .receive _ | _, .takeAck _ | _, .acceptable _ _ | _, .pauseOver _ _ | _, .sock _ _ _ =>
      inferInstanceAs (Decidable True)

/-- The answers that are due from each proxy. -/
def Daemon.dues (d : Daemon) : List (List Nat) := d.peers.map Peer.due

/-- The answer of one proxy to the current round: due, or in the log. -/
def Answered (p : Parent) (i : Nat) (due : List Nat) : Prop :=
  due = [] ∧ .acked i p.round ∈ p.log ∨ due = [p.round] ∧ .acked i p.round ∉ p.log

/-- What holds in every state of a quiet run with `n` processes. -/
structure Rounds (n : Nat) (p : Parent) (dues : List (List Nat)) : Prop where
  pos : 0 < n
  round : 0 < p.round
  prefork : p.scPrefork = n
  length : dues.length = n
  answered : Everyone (Answered p) dues
  reload : p.scReload = (dues.map List.length).sum
  current : p.log.count (.started p.round) = if p.scReload = 0 then 1 else 0
  past : ∀ r, 0 < r → r < p.round → p.log.count (.started r) = 1
  future : ∀ r, p.round < r → .started r ∉ p.log ∧ ∀ i, .acked i r ∉ p.log
  zero : ∀ i, .acked i 0 ∉ p.log
  order : Everywhere (fun before o _ => ∀ r, o = .started r →
    ∀ i, i < n → .acked i r ∈ before) p.log

section Rounds

variable {n : Nat} {p : Parent} {dues : List (List Nat)}

/-- No answer is due when `sc_reload` is zero. -/
theorem Rounds.due_nil (h : Rounds n p dues) (hreload : p.scReload = 0) :
    Everyone (fun i due => due = [] ∧ .acked i p.round ∈ p.log) dues := by
  intro i due hdue
  rcases h.answered i due hdue with h' | ⟨rfl, -⟩
  · exact h'
  · have hmem : 1 ∈ dues.map List.length :=
      List.mem_map.mpr ⟨[p.round], List.mem_of_getElem? hdue, rfl⟩
    have hle := le_sum_of_mem hmem
    rw [← h.reload, hreload] at hle
    exact absurd hle (by decide)

/-- A new round: everybody's answer is due. -/
theorem Rounds.next (h : Rounds n p dues) (hreload : p.scReload = 0) (proxies : List ProxyConfig) :
    Rounds n { p with scProxies := proxies, scReload := n, round := p.round + 1 }
      (dues.map (· ++ [p.round + 1])) := by
  have hfuture := h.future (p.round + 1) (by omega)
  have hnil := h.due_nil hreload
  have hdues : dues.map (· ++ [p.round + 1]) = List.replicate n [p.round + 1] := by
    rw [← h.length, List.eq_replicate_iff]
    refine ⟨by simp, fun due hdue => ?_⟩
    obtain ⟨due', hdue', rfl⟩ := List.mem_map.mp hdue
    obtain ⟨i, hi⟩ := List.getElem?_of_mem hdue'
    rw [(hnil i due' hi).1]
    rfl
  rw [hdues]
  constructor
  · exact h.pos
  · exact Nat.succ_pos _
  · exact h.prefork
  · simp
  · exact Everyone.replicate fun i _ => .inr ⟨rfl, hfuture.2 i⟩
  · simp
  · rw [if_neg (Nat.pos_iff_ne_zero.mp h.pos)]
    exact List.count_eq_zero.mpr hfuture.1
  · intro r hpos hr
    by_cases hlast : r = p.round
    · subst hlast
      exact h.current.trans (if_pos hreload)
    · exact h.past r hpos (Nat.lt_of_le_of_ne (Nat.le_of_lt_succ hr) hlast)
  · exact fun r hr => h.future r (Nat.lt_of_succ_lt hr)
  · exact h.zero
  · exact h.order

/-- The parent takes an answer. -/
theorem Rounds.ack (h : Rounds n p dues) (hdue : dues[i]? = some (r :: due)) :
    r = p.round ∧ due = [] ∧ .acked i p.round ∉ p.log ∧ 0 < p.scReload ∧
      ((dues.modify i List.tail).map List.length).sum + 1 = p.scReload := by
  have hsum := sum_modify List.length (f := List.tail) hdue
  rw [← h.reload] at hsum
  rcases h.answered i _ hdue with ⟨hnil, -⟩ | ⟨hone, hnew⟩
  · cases hnil
  · cases hone
    simp only [List.length_cons, List.length_nil, List.tail_cons] at hsum
    exact ⟨rfl, rfl, hnew, by omega, by omega⟩

/-- After an answer the answers are right, whatever else is put into the log. -/
theorem Rounds.answered_ack (h : Rounds n p dues) (hdue : dues[i]? = some (r :: due)) {q : Parent}
    (hround : q.round = p.round) {signs : List Sign} (hlog : q.log = p.log ++ .acked i r :: signs)
    (hsigns : ∀ j s, .acked j s ∉ signs) : Everyone (Answered q) (dues.modify i List.tail) := by
  obtain ⟨rfl, rfl, -, -⟩ := h.ack hdue
  refine Everyone.modify h.answered (fun due' hdue' _ => ?_) fun j due' hji hans => ?_
  · rw [hdue] at hdue'
    cases hdue'
    exact .inl ⟨rfl, by simp [hround, hlog]⟩
  · rw [Answered, hround, hlog]
    refine hans.imp (And.imp_right fun hmem => by simp [hmem]) (And.imp_right fun hmem => ?_)
    simp [hmem, hsigns, hji]

/-- Entries that are no starts and belong to this round at most. -/
theorem Rounds.log_ack (h : Rounds n p dues) {i : Nat} {signs : List Sign}
    (hsigns : signs = [] ∨ signs = [.started p.round]) :
    (∀ s, s < p.round → (p.log ++ .acked i p.round :: signs).count (.started s)
      = p.log.count (.started s)) ∧
    (∀ s, p.round < s → .started s ∉ p.log ++ .acked i p.round :: signs ∧
      ∀ j, .acked j s ∉ p.log ++ .acked i p.round :: signs) ∧
    ∀ j, .acked j 0 ∉ p.log ++ .acked i p.round :: signs := by
  have hround := h.round
  refine ⟨fun s hs => ?_, fun s hs => ?_, fun j => ?_⟩
  · have hne : ¬ p.round = s := by omega
    rcases hsigns with rfl | rfl <;> simp [hne]
  · have hne : ¬ s = p.round := by omega
    obtain ⟨hstart, hack⟩ := h.future s hs
    rcases hsigns with rfl | rfl <;> exact ⟨by simp [hstart, hne], fun j => by simp [hack j, hne]⟩
  · have hne : ¬ 0 = p.round := by omega
    rcases hsigns with rfl | rfl <;> simp [h.zero j, hne]

theorem Rounds.counted (h : Rounds n p dues) (hdue : dues[i]? = some (r :: due))
    (hreload : 1 < p.scReload) :
    Rounds n { p with scReload := p.scReload - 1, log := p.log ++ [.acked i r] }
      (dues.modify i List.tail) := by
  obtain ⟨rfl, rfl, hnew, -, hsum⟩ := h.ack hdue
  obtain ⟨hcount, hfuture, hzero⟩ := h.log_ack (i := i) (.inl rfl)
  constructor
  · exact h.pos
  · exact h.round
  · exact h.prefork
  · rw [List.length_modify]
    exact h.length
  · exact h.answered_ack hdue rfl rfl (by simp)
  · dsimp only
    omega
  · dsimp only
    rw [List.count_append, h.current, if_neg (by omega), if_neg (by omega)]
    simp
  · exact fun s hpos hs => (hcount s hs).trans (h.past s hpos hs)
  · exact hfuture
  · exact hzero
  · refine h.order.append (fun _ _ _ _ hP => hP) (everywhere_singleton.mpr ?_)
    intro s hs
    cases hs

theorem Rounds.last (h : Rounds n p dues) (hdue : dues[i]? = some (r :: due))
    (hreload : p.scReload = 1) :
    Rounds n { p with scReload := 0, log := p.log ++ [.acked i r] ++ [.started p.round] }
      (dues.modify i List.tail) := by
  obtain ⟨rfl, rfl, hnew, -, hsum⟩ := h.ack hdue
  obtain ⟨hcount, hfuture, hzero⟩ := h.log_ack (i := i) (.inr rfl)
  have hlog : p.log ++ [Sign.acked i p.round] ++ [.started p.round]
      = p.log ++ [.acked i p.round, .started p.round] := by simp
  have hanswered : Everyone (Answered { p with
        scReload := 0
        log := p.log ++ [.acked i p.round] ++ [.started p.round] }) (dues.modify i List.tail) :=
    h.answered_ack hdue rfl hlog (by simp)
  rw [hlog] at hanswered ⊢
  have hsum0 : ((dues.modify i List.tail).map List.length).sum = 0 := by omega
  have hlength : (dues.modify i List.tail).length = n := by
    rw [List.length_modify]
    exact h.length
  -- nobody's answer is missing any more
  have hall : ∀ j, j < n → .acked j p.round ∈ p.log ++ [.acked i p.round] := by
    intro j hj
    have hlt : j < (dues.modify i List.tail).length := hlength.symm ▸ hj
    have hget := List.getElem?_eq_getElem hlt
    rcases hanswered j _ hget with ⟨-, hmem⟩ | ⟨hone, -⟩
    · simpa using hmem
    · have hmem : 1 ∈ (dues.modify i List.tail).map List.length :=
        List.mem_map.mpr ⟨_, List.mem_of_getElem? hget, by rw [hone]; rfl⟩
      have hle := le_sum_of_mem hmem
      omega
  constructor
  · exact h.pos
  · exact h.round
  · exact h.prefork
  · exact hlength
  · exact hanswered
  · exact hsum0.symm
  · dsimp only
    rw [List.count_append, h.current, if_neg (by omega)]
    simp
  · exact fun s hpos hs => (hcount s hs).trans (h.past s hpos hs)
  · exact hfuture
  · exact hzero
  · refine h.order.append (fun _ _ _ _ hP => hP) (everywhere_pair.mpr ⟨?_, ?_⟩)
    · intro s hs
      cases hs
    · intro s hs j hj
      cases hs
      exact hall j hj

/-- A reload that fails. -/
theorem Rounds.fails (h : Rounds n p dues) (proxies : List ProxyConfig) :
    Rounds n { p with scProxies := proxies, scPrefork := n } dues :=
  ⟨h.pos, h.round, rfl, h.length, h.answered, h.reload, h.current, h.past, h.future, h.zero,
    h.order⟩

end Rounds

/-! ## Every event of a quiet run -/

section Events

variable {n : Nat}

theorem dues_send (peers : List Peer) (ms : List Imsg) :
    (peers.map (Peer.send ms)).map Peer.due
      = (peers.map Peer.due).map (· ++ ms.filterMap fun
          | .cfgDone round => some round
          | _ => none) := by
  rw [List.map_map, List.map_map]
  exact List.map_congr_left fun peer _ => due_send peer ms

theorem dues_proxy (i : Nat) (e : ProcEvent) : (d.proxy i e).dues = d.dues := by
  have hsame (peer : Peer) : ({ peer with proc := peer.proc.handle e } : Peer).due = peer.due := rfl
  exact map_modify hsame i

/-- Taking a message out of an outbox. -/
theorem dues_pop {rest : List Nat} (hpeer : d.peers[i]? = some peer)
    (hout : peer.outbox = r :: rest) :
    (d.peers.modify i fun peer => { peer with outbox := rest }).map Peer.due
        = d.dues.modify i List.tail ∧
      ∃ due, d.dues[i]? = some (r :: due) := by
  refine ⟨List.ext_getElem? fun j => ?_, ?_⟩
  · rw [List.getElem?_map, List.getElem?_modify, List.getElem?_modify, Daemon.dues,
      List.getElem?_map]
    by_cases hij : i = j
    · subst hij
      rw [hpeer]
      simp [Peer.due, hout]
    · cases d.peers[j]? with
      | none => rfl
      | some peer' => simp [hij]
  · rw [Daemon.dues, List.getElem?_map, hpeer]
    exact ⟨_, by simp [Peer.due, hout]; rfl⟩

theorem rounds_handle (h : Rounds n d.parent d.dues) {e : DaemonEvent} (hq : Quiet d e) :
    Rounds n (d.handle e).parent (d.handle e).dues := by
  have hlen : d.peers.length = n := by
    rw [← h.length, Daemon.dues, List.length_map]
  cases e with
  | sighup file fd =>
    obtain ⟨hfile, hover⟩ := hq
    have hprefork : file.prefork.getD d.parent.scPrefork = n := by
      rcases hfile with hp | hp <;> rw [hp]
      · exact h.prefork
      · exact hlen
    rw [Daemon.handle, parentReload_eq, hprefork]
    split
    · rename_i hvalid
      have hnext := h.next (hover hvalid) []
      rw [Daemon.dues, dues_send]
      have hmsgs : ((Imsg.ctlReset :: roundMsgs file.stored fd (d.parent.round + 1)).filterMap fun
          | .cfgDone round => some round
          | _ => none) = [d.parent.round + 1] := filterMap_roundMsgs _ _ _
      rw [hmsgs]
      exact ⟨hnext.pos, hnext.round, rfl, hnext.length, hnext.answered, hnext.reload,
        hnext.current, hnext.past, hnext.future, hnext.zero, hnext.order⟩
    · exact h.fails file.stored
  | receive i =>
    have hdues : (d.handle (.receive i)).dues = d.dues := map_modify due_receive i
    rw [hdues]
    exact h
  | takeAck i =>
    have hcase := takeAck_cases d i
    rw [Daemon.handle]
    generalize d.takeAck i = d' at hcase ⊢
    cases hcase with
    | nothing => exact h
    | late hpeer hout hreload =>
      -- an answer that is in a channel is due
      obtain ⟨-, due, hdue⟩ := dues_pop hpeer hout
      have hpos := (h.ack hdue).2.2.2.1
      omega
    | counted hpeer hout hreload =>
      obtain ⟨hdues, due, hdue⟩ := dues_pop hpeer hout
      rw [Daemon.dues, hdues]
      exact h.counted hdue hreload
    | last hpeer hout hreload =>
      obtain ⟨hdues, due, hdue⟩ := dues_pop hpeer hout
      rw [Daemon.dues, dues_send, hdues]
      simpa using h.last hdue hreload
  | acceptable i a =>
    rw [Daemon.handle, dues_proxy]
    exact h
  | pauseOver i a =>
    rw [Daemon.handle, dues_proxy]
    exact h
  | sock i id e =>
    rw [Daemon.handle, dues_proxy]
    exact h

theorem rounds_boot (h : boot hostNameMax pathMax file fd = some d) :
    Rounds d.peers.length d.parent d.dues := by
  have hpos := prefork_pos file
  rw [boot_eq h]
  generalize file.prefork.getD proxyNumproc = n at hpos
  have hdues : Daemon.dues
      { parent := ⟨[], n, n, 1, []⟩
        peers := List.replicate n
          ⟨Process.new hostNameMax pathMax, roundMsgs file.stored fd 1, []⟩ }
        = List.replicate n [1] := by
    rw [Daemon.dues, List.map_replicate]
    exact congrArg (List.replicate n) (filterMap_roundMsgs file.stored fd 1)
  rw [hdues, List.length_replicate]
  constructor
  · exact hpos
  · exact Nat.one_pos
  · rfl
  · simp
  · exact Everyone.replicate fun i _ => .inr ⟨rfl, by simp⟩
  · simp
  · simp [Nat.pos_iff_ne_zero.mp hpos]
  · intro r hr hr'
    dsimp only at hr'
    omega
  · simp
  · simp
  · exact Everywhere.nil

end Events

/-- **The count of answers is right while rounds do not overlap.** As long as every configuration
file asks for as many processes as there are (or does not say) and no reload starts while answers to
the last one are due, the parent sends `IMSG_CTL_START` for a round only when every process has
answered that round, and has sent it exactly once when all have. -/
theorem start_sent_when_all_answered {hostNameMax pathMax fd : Nat} {file : ConfFile} {d : Daemon}
    (hboot : boot hostNameMax pathMax file fd = some d) {es : List DaemonEvent}
    (hes : Steps Daemon.handle Quiet d es) :
    let s := d.run es
    Everywhere (fun before o _ => ∀ r, o = .started r →
      ∀ i, i < d.peers.length → .acked i r ∈ before) s.parent.log ∧
    ∀ r, (∀ i, i < d.peers.length → .acked i r ∈ s.parent.log) →
      s.parent.log.count (.started r) = 1 := by
  intro s
  have h : Rounds d.peers.length s.parent s.dues :=
    invariant (I := fun s => Rounds d.peers.length s.parent s.dues)
      (fun _ _ h hq => rounds_handle h hq) (rounds_boot hboot) hes
  refine ⟨h.order, fun r hall => ?_⟩
  have hfirst := hall 0 h.pos
  rcases Nat.lt_trichotomy r s.parent.round with hlt | rfl | hgt
  · refine h.past r (Nat.pos_of_ne_zero fun h0 => ?_) hlt
    subst h0
    exact h.zero 0 hfirst
  · -- all answers to the current round are in, so none is due
    have hnil : Everyone (fun _ due => due = []) s.dues := by
      intro i due hdue
      have hi : i < d.peers.length := by
        rw [← h.length]
        exact (List.getElem?_eq_some_iff.mp hdue).1
      rcases h.answered i due hdue with ⟨hnil, -⟩ | ⟨-, hnew⟩
      · exact hnil
      · exact absurd (hall i hi) hnew
    have hzero : s.parent.scReload = 0 := by
      rw [h.reload]
      refine List.sum_eq_zero fun x hx => ?_
      obtain ⟨due, hdue, rfl⟩ := List.mem_map.mp hx
      rw [Everyone.mem hnil hdue]
      rfl
    exact h.current.trans (if_pos hzero)
  · exact absurd hfirst ((h.future r hgt).2 0)

/-- Two processes are started and reconfigured once. -/
theorem quiet_reload_started :
    let es := takes 3 0 ++ takes 3 1 ++ [.takeAck 1, .takeAck 0]
      ++ .sighup (oneProxy [103] none rfl) 4 :: takes 5 0 ++ takes 5 1 ++ [.takeAck 0, .takeAck 1]
    Steps Daemon.handle Quiet twoPeers es ∧
      (twoPeers.run es).parent.log.count (.started 2) = 1 := by
  intro es
  have hes : Steps Daemon.handle Quiet twoPeers es := by decide
  exact ⟨hes, (start_sent_when_all_answered twoPeers_boot hes).2 2 (by decide)⟩

/-- The two ways to miscount. A second `SIGHUP` comes before the answers to the first configuration
are taken: the two answers start the second round, which nobody has answered. And a file asks for
three processes where there are two: both answer, and nothing is started. -/
theorem answers_miscounted :
    (twoPeers.run (takes 3 0 ++ takes 3 1
        ++ [.sighup (oneProxy [103] none rfl) 4, .takeAck 0, .takeAck 1])).parent.log
      = [.acked 0 1, .acked 1 1, .started 2] ∧
    (twoPeers.run (takes 3 0 ++ takes 3 1 ++ [.takeAck 0, .takeAck 1]
        ++ .sighup (oneProxy [103] (some 3) rfl) 4 :: takes 5 0 ++ takes 5 1
        ++ [.takeAck 0, .takeAck 1])).parent.log
      = [.acked 0 1, .acked 1 1, .started 1, .acked 0 2, .acked 1 2] := by
  decide

end Galileo
