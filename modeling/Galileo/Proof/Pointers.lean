import Galileo.Proof.Fates
import Galileo.Proof.Purge

/-!
# No pointer into `sc_proxies` outlives its entry

`clt_pc` points into the configuration, which a reset frees. What keeps the pointers valid is that
a reset first ends every request (`Galileo.Proof.Purge`), that entries are only ever added in
between, and that `clt_pc` is only ever set to an entry that is there.

`Sock.Pointed` is the invariant of one connection. It speaks of the *address* the pointer was set
to, not only of what it points to: a configuration that was freed and built again with the same
contents is not the same.
-/

set_option autoImplicit false

namespace Galileo

open Lib Lib.FastCgi Lib.Run

variable {p : Process} {proxies : List Proxy} {os : List Obs} {k : Sock}

/-! ## One connection -/

/-- The `clt_pc` of every client is null or points to an entry. -/
def Sock.Pointed (proxies : List Proxy) (k : Sock) : Prop :=
  ∀ c ∈ k.fcgi.fcgClients, c.cltPc = none ∨
    ∃ pr ∈ proxies, k.cltPc c.serial = some pr.addr ∧ c.cltPc = some pr.prConf

/-- What every connection of a process keeps. -/
structure Sock.Sound (proxies : List Proxy) (k : Sock) : Prop where
  keyed : k.fcgi.Keyed
  wf : k.fcgi.abs.Wf
  pointed : k.Pointed proxies

/-! ## Assignments -/

theorem proxyMatch_eq (p : Process) (name : Option Bytes) :
    proxyMatch p.env name = (proxyMatchEntry p.scProxies name).map Proxy.prConf := by
  cases name with
  | none => rfl
  | some name =>
    simp only [proxyMatch, proxyMatchEntry, Process.env, List.find?_map]
    rfl

theorem mem_of_proxyMatchEntry {name : Option Bytes} {pr : Proxy}
    (h : proxyMatchEntry proxies name = some pr) : pr ∈ proxies := by
  cases name with
  | none => cases h
  | some name => exact List.mem_of_find?_eq_some h

/-- The new log entries, as `assignments` finds them. -/
theorem drop_trace {f g : Fcgi} (h : g.trace = f.trace ++ os) :
    g.trace.drop f.trace.length = os := by
  rw [h, List.drop_left]

/-- The assignment that was made for a client that was started. -/
theorem find_assignments {g : Fcgi} (hk : k.Sound proxies) (htrace : g.trace = k.fcgi.trace ++ os)
    {c : Client} (hc : c ∈ k.fcgi.fcgClients) :
    (assignments proxies k.fcgi g).find? (fun a => a.1 == c.serial)
      = if .started c.serial ∈ os then
          (proxyMatchEntry proxies c.cltServerName).map fun pr => (c.serial, pr.addr)
        else none := by
  rw [assignments, drop_trace htrace, List.find?_filterMap]
  -- an assignment carries the serial of the client it was made for
  have hserial : ∀ (d : Client) (a : Nat × Nat), (if .started d.serial ∈ os then
      (proxyMatchEntry proxies d.cltServerName).map fun pr => (d.serial, pr.addr) else none)
        = some a → a.1 = d.serial := by
    intro d a h
    split at h
    · obtain ⟨pr, -, rfl⟩ := Option.map_eq_some_iff.mp h
      rfl
    · cases h
  cases hfind : k.fcgi.fcgClients.find? _ with
  | some d =>
    have hd := List.mem_of_find?_eq_some hfind
    have hany := List.find?_some hfind
    simp only [Option.any_eq_true, beq_iff_eq] at hany
    obtain ⟨a, ha, hac⟩ := hany
    rw [hk.keyed.eq_of_serial hk.wf hd hc ((hserial d a ha).symm.trans hac)]
    rfl
  | none =>
    symm
    rw [Option.bind_none, Option.eq_none_iff_forall_ne_some]
    intro a ha
    refine List.find?_eq_none.mp hfind c hc ?_
    simp only [Option.any_eq_true, beq_iff_eq]
    exact ⟨a, ha, hserial c a ha⟩

/-- Where the pointer of a client is after an event. -/
theorem cltPc_update {g : Fcgi} (hk : k.Sound proxies) (htrace : g.trace = k.fcgi.trace ++ os)
    {c : Client} (hc : c ∈ k.fcgi.fcgClients) :
    (k.update proxies g).cltPc c.serial
      = if .started c.serial ∈ os ∧ (proxyMatchEntry proxies c.cltServerName).isSome then
          (proxyMatchEntry proxies c.cltServerName).map Proxy.addr
        else k.cltPc c.serial := by
  rw [Sock.cltPc, Sock.update, List.find?_append, find_assignments hk htrace hc]
  by_cases hstart : .started c.serial ∈ os
  · cases hpr : proxyMatchEntry proxies c.cltServerName with
    | none => simp [Sock.cltPc]
    | some pr => simp [hstart]
  · simp [hstart, Sock.cltPc]

/-- **One event keeps the pointers of a connection valid.** -/
theorem Sock.Sound.step (hk : k.Sound p.scProxies) (e : Event) :
    (k.update p.scProxies (step p.env k.fcgi e)).Sound p.scProxies where
  keyed := (step_grows p.env k.fcgi e).keyed hk.keyed
  wf := @wf_run k.fcgi p.env hk.wf [e]
  pointed := by
    intro d hd
    obtain ⟨os, htrace, hall⟩ := step_fates p.env (hk.keyed.distinct hk.wf) e
    rcases hall d hd with ⟨i, n, rfl⟩ | ⟨c, hc, hfate⟩
    · exact .inl rfl
    · obtain ⟨hserial, hpc⟩ := hfate.request
      rw [hserial, cltPc_update hk htrace hc, hpc]
      by_cases hstart : .started c.serial ∈ os
      · -- the pointer was set by this event
        simp only [hstart, decide_true, if_true, true_and, proxyMatch_eq]
        cases hpr : proxyMatchEntry p.scProxies c.cltServerName with
        | none => exact .inl rfl
        | some pr => exact .inr ⟨pr, mem_of_proxyMatchEntry hpr, rfl, rfl⟩
      · simp only [hstart, decide_false, false_and, if_false]
        exact hk.pointed c hc

theorem Sock.Sound.mono {proxies proxies' : List Proxy} (hk : k.Sound proxies)
    (h : ∀ pr ∈ proxies, pr ∈ proxies') : k.Sound proxies' :=
  ⟨hk.keyed, hk.wf, fun c hc => (hk.pointed c hc).imp_right fun ⟨pr, hpr, h'⟩ => ⟨pr, h pr hpr, h'⟩⟩

theorem sound_new (proxies : List Proxy) (id : UInt32) (writes : List Bool) (asr : List AsrAnswer) :
    (Sock.mk id (Fcgi.new writes asr) []).Sound proxies where
  keyed := ⟨by simp [Fcgi.ids, Fcgi.new], by simp [Fcgi.ids, Fcgi.new]⟩
  wf := Conn.wf_opened
  pointed := fun c hc => by cases hc

/-! ## The process -/

/-- Every connection of the process is sound. -/
def Process.Sound (p : Process) : Prop := ∀ k ∈ p.scFcgiSocks.members, k.Sound p.scProxies

theorem sound_of_members {p q : Process} (hp : p.Sound)
    (hproxies : ∀ pr ∈ p.scProxies, pr ∈ q.scProxies)
    (hmem : ∀ k ∈ q.scFcgiSocks.members, k ∈ p.scFcgiSocks.members) : q.Sound :=
  fun k hk => (hp k (hmem k hk)).mono hproxies

theorem sound_of_empty (h : p.scFcgiSocks.members = []) : p.Sound := by
  intro k hk
  rw [h] at hk
  cases hk

theorem sound_fcgiAccept (hp : p.Sound) (timeout : Bool) (a : AcceptEnv) :
    (fcgiAccept timeout a p).Sound := by
  have hsame : ∀ q : Process, q.scProxies = p.scProxies → q.scFcgiSocks = p.scFcgiSocks →
      q.Sound := fun q h h' =>
    sound_of_members hp (fun _ hpr => h ▸ hpr) fun _ hk => h' ▸ hk
  unfold fcgiAccept
  dsimp only
  split
  · exact hsame _ rfl rfl
  split
  · exact hsame _ rfl rfl
  · exact hsame _ rfl rfl
  split
  · exact hsame _ rfl rfl
  split
  · exact hsame _ rfl rfl
  · intro k hk
    rcases Tree.mem_of_insert hk with rfl | hk
    · exact sound_new _ _ _ _
    · exact hp k hk

theorem sound_onSock (hp : p.Sound) (id : UInt32) (e : Event) : (p.onSock id e).Sound := by
  unfold Process.onSock
  cases hfind : p.scFcgiSocks.find id with
  | none => exact hp
  | some k =>
    obtain ⟨hmem, -⟩ := Tree.find_some hfind
    dsimp only
    split
    · exact sound_of_members hp (fun _ h => h) fun j hj => (Tree.mem_remove.mp hj).1
    · intro j hj
      have hsome : (p.scFcgiSocks.find
          (k.update p.scProxies (step p.env k.fcgi e)).fcgId).isSome := by
        rw [show (k.update p.scProxies (step p.env k.fcgi e)).fcgId = k.fcgId from rfl,
          Tree.find_of_mem hmem]
        rfl
      rcases (Tree.mem_store hsome).mp hj with rfl | ⟨hj, -⟩
      · exact (hp k hmem).step e
      · exact hp j hj

theorem sound_handle (hp : p.Sound) (e : ProcEvent) : (p.handle e).Sound := by
  cases e with
  | acceptable a =>
    rw [Process.handle]
    split
    · exact sound_fcgiAccept hp false a
    · exact hp
  | pauseOver a =>
    rw [Process.handle]
    split
    · exact sound_fcgiAccept (p := { p with evpause := false }) hp true a
    · exact hp
  | sock id e => exact sound_onSock hp id e
  | imsg m =>
    cases m with
    | cfgSrv conf =>
      exact sound_of_members (q := configGetproxy conf p) hp
        (fun pr hpr => List.mem_append_left _ hpr) fun _ hk => hk
    | cfgSock fd => exact sound_of_members hp (fun _ h => h) fun _ hk => hk
    | cfgDone round => exact sound_of_members hp (fun _ h => h) fun _ hk => hk
    | ctlStart => exact hp
    | ctlReset =>
      obtain ⟨q, hq, -, hempty⟩ := configGetreset_rule (I := fun _ => True)
        (fun _ _ _ _ => trivial) (p := p) trivial
      rw [Process.handle, proxyDispatchParent, hq]
      exact sound_of_empty ((congrArg Tree.members (purgeConfig_scFcgiSocks q)).trans hempty)

theorem sound_run (hostNameMax pathMax : Nat) (es : List ProcEvent) :
    ((Process.new hostNameMax pathMax).run es).Sound :=
  invariant (C := fun _ _ => True) (I := Process.Sound) (fun _ e hp _ => sound_handle hp e)
    (sound_of_empty rfl) (Steps.of_forall (fun _ _ => trivial) _ es)

/-- **A reset leaves nothing dangling.** `config_purge` ends, whatever connections and clients there
are and whichever writes fail, with no connection, no client and no proxy entry left. And in every
state of a proxy process, whatever has happened to it, the `clt_pc` of each client is null or points
to an entry that is in `sc_proxies`. -/
theorem reset_leaves_nothing_dangling :
    (∀ p : Process, ∃ n q, (∀ m, n ≤ m → configPurge m p = some q) ∧
      q.scFcgiSocks.members = [] ∧ q.scProxies = []) ∧
    ∀ (hostNameMax pathMax : Nat) (es : List ProcEvent),
      let p := (Process.new hostNameMax pathMax).run es
      ∀ k ∈ p.scFcgiSocks.members, ∀ c ∈ k.fcgi.fcgClients, c.cltPc = none ∨
        ∃ pr ∈ p.scProxies, k.cltPc c.serial = some pr.addr ∧ c.cltPc = some pr.prConf := by
  constructor
  · intro p
    obtain ⟨q, hq, -, hempty⟩ := configPurge_rule (I := fun _ => True) (fun _ _ _ _ => trivial)
      (p := p) trivial (Nat.le_refl p.rounds)
    exact ⟨p.rounds, purgeConfig q, fun m hm => configPurge_mono hq hm,
      (congrArg Tree.members (purgeConfig_scFcgiSocks q)).trans hempty, rfl⟩
  · intro hostNameMax pathMax es p k hk
    exact (sound_run hostNameMax pathMax es k hk).pointed

end Galileo
