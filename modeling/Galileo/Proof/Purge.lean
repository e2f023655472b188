import Galileo.Model.Process
import Galileo.Proof.Clients
import Galileo.Proof.Script

/-!
# `config_purge` empties the process

Two nested loops over trees that the callee takes members from: `fcgi_abort_request` removes the
client it was called for, or, when a write fails, `fcgi_error` removes the whole connection the
outer loop is at. Both make the process smaller, and that is all there is to termination:
`Purging.measure` counts the connections and their clients, and every round takes one away or is
the first round at a connection.

What a round does to a connection is said once (`purgeRound_cases`), in the terms of `Lib.Tree`.

The second half is about the peers. Every client is ended with a proper `FCGI_END_REQUEST`, but a
`bufferevent` only *queues* what it is given, the event loop does not run inside `config_purge`, and
`bufferevent_free` drops the queue: what was not sent before is never sent (`purge_delivers_iff`).
-/

set_option autoImplicit false

namespace Galileo

open Lib Lib.FastCgi

variable {s s' : Purging} {c : Client} {p : Process} {f : Fcgi}

/-! ## Aborting one request -/

theorem exists_find_of_mem (hc : c ∈ f.fcgClients) : ∃ d, f.find c.cltId = some d := by
  rw [← Option.isSome_iff_exists, Fcgi.find_eq, List.find?_isSome]
  exact ⟨c, hc, by simp⟩

/-- `fcgi_abort_request` takes the client off the connection, or the connection is gone. -/
theorem abort_cases (hc : c ∈ f.fcgClients) :
    (∃ g, withClient c.cltId fcgiAbortRequest f = (some (), g) ∧
      g.fcgClients = f.fcgClients.filter fun d => fcgiClientCmp c.cltId d.cltId != 0) ∨
    ∃ g, withClient c.cltId fcgiAbortRequest f = (none, g) ∧ g.fcgClients = [] := by
  obtain ⟨d, hd⟩ := exists_find_of_mem hc
  have hid : d.cltId = c.cltId := f.cltId_of_find hd
  have hrun := (endRequest_finishes 1 overloaded).runs ⟨f, d⟩
  rw [withClient_run hd, fcgiAbortRequest]
  generalize endRequest 1 overloaded ⟨f, d⟩ = r at hrun
  obtain ⟨ret, y⟩ := r
  rcases hrun with ⟨rfl, h⟩ | ⟨rfl, h⟩
  · obtain ⟨g, ws, as, ps, ⟨ds, ws', asr, -, rfl⟩, hy, hyid⟩ := h
    -- the client is no longer in the tree, so storing its fields does nothing
    have hnone : y.fcgi.find y.clt.cltId = none := by
      rw [hy, hyid]
      exact (Fcgi.find_finish _ d (endReqBody as ps) _).trans (if_pos rfl)
    refine .inl ⟨y.fcgi, by rw [Fcgi.store_of_find_none hnone], ?_⟩
    rw [hy, ← hid]
    rfl
  · obtain ⟨ds, ws, as, out, -, -, hy⟩ := h
    refine .inr ⟨_, rfl, ?_⟩
    rw [Fcgi.store, hy]
    rfl

/-! ## One round -/

/-- The rounds that are left at most. -/
def Purging.measure (s : Purging) : Nat :=
  2 * (s.env.scFcgiSocks.members.map fun k => k.fcgi.fcgClients.length + 1).sum
    + if s.fcgi = none then 1 else 0

/-- The variable `fcgi` points to a connection that is there. -/
def Purging.Valid (s : Purging) : Prop :=
  ∀ id, s.fcgi = some id → (s.env.scFcgiSocks.find id).isSome

/-- What a round can do. -/
inductive PurgeCase (s : Purging) : Purging → Prop
  | picks (k : Sock) (hnone : s.fcgi = none) (hk : k ∈ s.env.scFcgiSocks.members) :
      PurgeCase s ⟨some k.fcgId, s.env⟩
  | aborts (k : Sock) (c : Client) (g : Fcgi) (hat : s.fcgi = some k.fcgId)
      (hk : k ∈ s.env.scFcgiSocks.members) (hc : c ∈ k.fcgi.fcgClients)
      (habort : withClient c.cltId fcgiAbortRequest k.fcgi = (some (), g))
      (hg : g.fcgClients = k.fcgi.fcgClients.filter fun d => fcgiClientCmp c.cltId d.cltId != 0) :
      PurgeCase s ⟨some k.fcgId, s.env.store { k with fcgi := g }⟩
  | breaks (k : Sock) (c : Client) (g : Fcgi) (hat : s.fcgi = some k.fcgId)
      (hk : k ∈ s.env.scFcgiSocks.members) (hc : c ∈ k.fcgi.fcgClients)
      (habort : withClient c.cltId fcgiAbortRequest k.fcgi = (none, g)) :
      PurgeCase s ⟨none, s.env.fcgiError { k with fcgi := g }⟩
  | frees (k : Sock) (hat : s.fcgi = some k.fcgId) (hk : k ∈ s.env.scFcgiSocks.members)
      (hempty : k.fcgi.fcgClients = []) : PurgeCase s ⟨none, s.env.fcgiFree k⟩

theorem purgeRound_cases (h : purgeRound s = some s') : PurgeCase s s' := by
  obtain ⟨fcgi, p⟩ := s
  unfold purgeRound at h
  cases fcgi with
  | none =>
    obtain ⟨k, hk, rfl⟩ := Option.map_eq_some_iff.mp h
    exact .picks k rfl (Tree.mem_of_min hk)
  | some id =>
    dsimp only at h
    cases hfind : p.scFcgiSocks.find id with
    | none =>
      rw [hfind] at h
      cases h
    | some k =>
      obtain ⟨hk, hid⟩ := Tree.find_some hfind
      rw [hfind] at h
      dsimp only at h
      cases hclt : least Client.cltId k.fcgi.fcgClients with
      | none =>
        rw [hclt] at h
        cases h
        exact .frees k (by rw [← hid]) hk (least_eq_none.mp hclt)
      | some c =>
        have hc := mem_of_least hclt
        rw [hclt] at h
        dsimp only at h
        rcases abort_cases hc with ⟨g, habort, hg⟩ | ⟨g, habort, -⟩
        · rw [habort, ← hid] at h
          cases h
          exact .aborts k c g (by rw [← hid]) hk hc habort hg
        · rw [habort] at h
          cases h
          exact .breaks k c g (by rw [← hid]) hk hc habort

/-- The loops end only when there is no connection left. -/
theorem purgeRound_none {s : Purging} (hs : s.Valid) (h : purgeRound s = none) :
    s.env.scFcgiSocks.members = [] := by
  obtain ⟨fcgi, p⟩ := s
  unfold purgeRound at h
  cases fcgi with
  | none => exact Tree.min_eq_none.mp (Option.map_eq_none_iff.mp h)
  | some id =>
    obtain ⟨k, hk⟩ := Option.isSome_iff_exists.mp (hs id rfl)
    dsimp only at h hk
    rw [hk] at h
    dsimp only at h
    cases hclt : least Client.cltId k.fcgi.fcgClients with
    | none =>
      rw [hclt] at h
      cases h
    | some c =>
      rw [hclt] at h
      dsimp only at h
      rcases abort_cases (mem_of_least hclt) with ⟨g, habort, -⟩ | ⟨g, habort, -⟩ <;>
        rw [habort] at h <;> cases h

theorem PurgeCase.valid (h : PurgeCase s s') : s'.Valid := by
  intro id hid
  cases h with
  | picks k hnone hk =>
    cases hid
    rw [Tree.find_of_mem hk]
    rfl
  | aborts k c g hat hk hc habort hg =>
    cases hid
    have hfind : (s.env.scFcgiSocks.find k.fcgId).isSome := by
      rw [Tree.find_of_mem hk]
      rfl
    have hstore := Tree.find_store (a := { k with fcgi := g }) hfind
    exact Option.isSome_iff_exists.mpr ⟨_, hstore⟩
  | breaks | frees => cases hid

/-- Taking a client away makes the list shorter. -/
theorem length_filter_client {l : List Client} (hc : c ∈ l) :
    (l.filter fun d => fcgiClientCmp c.cltId d.cltId != 0).length < l.length := by
  refine List.length_filter_lt_length_iff_exists.mpr ⟨c, hc, ?_⟩
  have h := (fcgiClientCmp_eq_zero c.cltId c.cltId).mpr rfl
  simp [h]

theorem PurgeCase.measure_lt (h : PurgeCase s s') : s'.measure < s.measure := by
  cases h with
  | picks k hnone hk =>
    simp [Purging.measure, hnone]
  | aborts k c g hat hk hc habort hg =>
    have hsum := Tree.sum_store (a := { k with fcgi := g }) (b := k)
      (fun k => k.fcgi.fcgClients.length + 1) hk rfl
    have hlen := length_filter_client hc
    simp only [hg] at hsum
    simp only [Purging.measure, Process.store, hat]
    simp only [reduceCtorEq, if_false]
    omega
  | breaks k c g hat hk hc habort =>
    have hsum := Tree.sum_remove (fun k : Sock => k.fcgi.fcgClients.length + 1) hk
    simp only [Purging.measure, Process.fcgiError, Process.fcgiFree, fcgiInflightDec, hat]
    simp only [reduceCtorEq, if_false, if_true]
    omega
  | frees k hat hk hempty =>
    have hsum := Tree.sum_remove (fun k : Sock => k.fcgi.fcgClients.length + 1) hk
    simp only [Purging.measure, Process.fcgiFree, hat]
    simp only [reduceCtorEq, if_false, if_true]
    omega

/-! ## The configuration -/

section Config

variable (p : Process)

@[simp] theorem purgeConfig_scFcgiSocks : (purgeConfig p).scFcgiSocks = p.scFcgiSocks := by
  unfold purgeConfig
  split <;> rfl

@[simp] theorem purgeConfig_scProxies : (purgeConfig p).scProxies = [] := rfl

@[simp] theorem purgeConfig_gone : (purgeConfig p).gone = p.gone := by
  unfold purgeConfig
  split <;> rfl

end Config

/-! ## All rounds -/

theorem configPurge_mono {n m : Nat} {p q : Process} (h : configPurge n p = some q)
    (hnm : n ≤ m) : configPurge m p = some q := by
  obtain ⟨t, ht, rfl⟩ := Option.map_eq_some_iff.mp h
  rw [configPurge, loop_mono ht hnm]
  rfl

/-- **The rule for `config_purge`.** It ends, with no connection left, and keeps what every round
keeps. -/
theorem configPurge_rule {I : Process → Prop}
    (hround : ∀ s s', I s.env → PurgeCase s s' → I s'.env) (hp : I p) {n : Nat}
    (hn : p.rounds ≤ n) : ∃ q, configPurge n p = some (purgeConfig q) ∧ I q ∧
      q.scFcgiSocks.members = [] := by
  have hlt : Purging.measure ⟨none, p⟩ < n := by
    simp only [Purging.measure, Process.rounds, if_true] at hn ⊢
    omega
  obtain ⟨t, ht, ⟨hvalid, hI⟩, hend⟩ := loop_of_measure
    (I := fun s => s.Valid ∧ I s.env) Purging.measure (fun s s' hs (hr : purgeRound s = some s') =>
      have hcase := purgeRound_cases hr
      ⟨⟨hcase.valid, hround s s' hs.2 hcase⟩, hcase.measure_lt⟩)
    (s := ⟨none, p⟩) ⟨fun id hid => (by cases hid), hp⟩ hlt
  exact ⟨t.env, by rw [configPurge, ht]; rfl, hI, purgeRound_none hvalid hend⟩

/-- `config_purge` as a message handler runs it. -/
theorem configGetreset_rule {I : Process → Prop}
    (hround : ∀ s s', I s.env → PurgeCase s s' → I s'.env) (hp : I p) :
    ∃ q, configGetreset p = { purgeConfig q with launched := false } ∧ I q ∧
      q.scFcgiSocks.members = [] := by
  obtain ⟨q, hq, hI, hempty⟩ := configPurge_rule hround hp (Nat.le_refl p.rounds)
  exact ⟨q, by rw [configGetreset, hq]; rfl, hI, hempty⟩

/-! ## What the peers hear of it -/

/-- When no write fails, a request that is aborted leaves a record in the queue. -/
theorem abort_queues (hc : c ∈ f.fcgClients) (hw : false ∉ f.writes) :
    ∃ g, withClient c.cltId fcgiAbortRequest f = (some (), g) ∧ g.sent = f.sent ∧
      f.output.length < g.output.length ∧ false ∉ g.writes := by
  obtain ⟨d, hd⟩ := exists_find_of_mem hc
  have hplays : Plays ⟨[], .ends 1 overloaded⟩ ⟨f, d⟩ (endRequest 1 overloaded ⟨f, d⟩) :=
    follows_end 1 overloaded ⟨f, d⟩ rfl
  rw [withClient_run hd, fcgiAbortRequest]
  generalize endRequest 1 overloaded ⟨f, d⟩ = r at hplays
  cases hplays with
  | goes hnext => cases hnext
  | crashed hnext => cases hnext
  | torn hfail => exact absurd hfail hw
  | @ends status proto ds ws as e hnext hds hws htext hid =>
    refine ⟨_, rfl, rfl, ?_, fun h => hw (hws.subset h)⟩
    have hwire :
        (Obs.queued endRequestType d.cltId.toUInt16 (endReqBody status proto)).wire.length = 16 :=
          rfl
    simp only [Fcgi.store, Fcgi.finish, Fcgi.said, List.length_append, hwire]
    omega

/-- What `config_purge` makes of a connection while no write fails. -/
def Fcgi.Purged (f g : Fcgi) : Prop :=
  g.sent = f.sent ∧ (g = f ∨ f.fcgClients ≠ [] ∧ f.output.length < g.output.length)

/-- Between the process `p` that is purged and the process `q` after some rounds: each connection
is still there or has been closed, and nothing else has been closed. -/
structure PurgedTo (p q : Process) : Prop where
  writes : ∀ k ∈ q.scFcgiSocks.members, false ∉ k.fcgi.writes
  members : ∀ k ∈ q.scFcgiSocks.members, ∃ j ∈ p.scFcgiSocks.members,
    j.fcgId = k.fcgId ∧ j.fcgi.Purged k.fcgi
  gone : ∃ fs, q.gone = p.gone ++ fs ∧ ∀ g ∈ fs, ∃ j ∈ p.scFcgiSocks.members,
    j.fcgi.Purged g ∧ g.fcgClients = []
  all : ∀ j ∈ p.scFcgiSocks.members,
    (∃ k ∈ q.scFcgiSocks.members, k.fcgId = j.fcgId ∧ j.fcgi.Purged k.fcgi) ∨
      ∃ g ∈ q.gone.drop p.gone.length, j.fcgi.Purged g ∧ g.fcgClients = []

theorem Fcgi.Purged.refl (f : Fcgi) : f.Purged f := ⟨rfl, .inl rfl⟩

/-- One more request is aborted. -/
theorem Fcgi.Purged.abort {f g h : Fcgi} (hfg : f.Purged g) (hg : g.fcgClients ≠ [])
    (hsent : h.sent = g.sent) (hlen : g.output.length < h.output.length) : f.Purged h := by
  refine ⟨hsent.trans hfg.1, .inr ?_⟩
  rcases hfg.2 with rfl | ⟨hf, hlt⟩
  · exact ⟨hg, hlen⟩
  · exact ⟨hf, hlt.trans hlen⟩

theorem PurgedTo.refl (hw : ∀ k ∈ p.scFcgiSocks.members, false ∉ k.fcgi.writes) : PurgedTo p p where
  writes := hw
  members k hk := ⟨k, hk, rfl, .refl _⟩
  gone := ⟨[], by simp, by simp⟩
  all k hk := .inl ⟨k, hk, rfl, .refl _⟩

theorem PurgedTo.aborts {p q : Process} (h : PurgedTo p q) {k : Sock} {g : Fcgi}
    (hk : k ∈ q.scFcgiSocks.members) (hc : c ∈ k.fcgi.fcgClients)
    (habort : withClient c.cltId fcgiAbortRequest k.fcgi = (some (), g)) :
    PurgedTo p (q.store { k with fcgi := g }) := by
  obtain ⟨g', habort', hsent, hlen, hws⟩ := abort_queues hc (h.writes k hk)
  rw [habort] at habort'
  cases habort'
  have hne : k.fcgi.fcgClients ≠ [] := List.ne_nil_of_mem hc
  have hmem (j : Sock) : j ∈ (q.store { k with fcgi := g }).scFcgiSocks.members ↔
      j = { k with fcgi := g } ∨ j ∈ q.scFcgiSocks.members ∧ j.fcgId ≠ k.fcgId :=
    Tree.mem_store (a := { k with fcgi := g }) (by
      show (q.scFcgiSocks.find k.fcgId).isSome = true
      rw [Tree.find_of_mem hk]
      rfl)
  constructor
  · intro j hj
    rcases (hmem j).mp hj with rfl | ⟨hj, -⟩
    · exact hws
    · exact h.writes j hj
  · intro j hj
    rcases (hmem j).mp hj with rfl | ⟨hj, -⟩
    · obtain ⟨i, hi, hid, hpurged⟩ := h.members k hk
      exact ⟨i, hi, hid, hpurged.abort hne hsent hlen⟩
    · exact h.members j hj
  · exact h.gone
  · intro j hj
    refine (h.all j hj).imp_left ?_
    rintro ⟨i, hi, hid, hpurged⟩
    by_cases hik : i.fcgId = k.fcgId
    · -- the connection the request was aborted on
      have hsame : i = k := by
        have hfind := Tree.find_of_mem hi
        rw [hik, Tree.find_of_mem hk] at hfind
        exact (Option.some.inj hfind).symm
      subst hsame
      exact ⟨_, (hmem _).mpr (.inl rfl), hid, hpurged.abort hne hsent hlen⟩
    · exact ⟨i, (hmem i).mpr (.inr ⟨hi, hik⟩), hid, hpurged⟩

theorem PurgedTo.frees {p q : Process} (h : PurgedTo p q) {k : Sock}
    (hk : k ∈ q.scFcgiSocks.members) (hempty : k.fcgi.fcgClients = []) :
    PurgedTo p (q.fcgiFree k) := by
  obtain ⟨fs, hgone, hfs⟩ := h.gone
  have hdrop : (q.fcgiFree k).gone.drop p.gone.length = fs ++ [k.fcgi] := by
    rw [Process.fcgiFree, hgone, List.append_assoc, List.drop_left]
  constructor
  · exact fun j hj => h.writes j (Tree.mem_remove.mp hj).1
  · exact fun j hj => h.members j (Tree.mem_remove.mp hj).1
  · refine ⟨fs ++ [k.fcgi], by rw [Process.fcgiFree, hgone, List.append_assoc], fun g hg => ?_⟩
    rcases List.mem_append.mp hg with hg | hg
    · exact hfs g hg
    · obtain ⟨j, hj, -, hpurged⟩ := h.members k hk
      rw [List.mem_singleton.mp hg]
      exact ⟨j, hj, hpurged, hempty⟩
  · intro j hj
    rw [hdrop]
    rcases h.all j hj with ⟨i, hi, hid, hpurged⟩ | ⟨g, hg, hpurged⟩
    · by_cases hik : i.fcgId = k.fcgId
      · have hsame : i = k := by
          have hfind := Tree.find_of_mem hi
          rw [hik, Tree.find_of_mem hk] at hfind
          exact (Option.some.inj hfind).symm
        subst hsame
        exact .inr ⟨i.fcgi, by simp, hpurged, hempty⟩
      · exact .inl ⟨i, Tree.mem_remove.mpr ⟨hi, hik⟩, hid, hpurged⟩
    · rw [hgone, List.drop_left] at hg
      exact .inr ⟨g, List.mem_append_left _ hg, hpurged⟩

theorem PurgedTo.round (h : PurgedTo p s.env) (hcase : PurgeCase s s') : PurgedTo p s'.env := by
  cases hcase with
  | picks k hnone hk => exact h
  | aborts k c g hat hk hc habort hg => exact h.aborts hk hc habort
  | breaks k c g hat hk hc habort =>
    -- no write fails
    obtain ⟨g', habort', -⟩ := abort_queues hc (h.writes k hk)
    rw [habort] at habort'
    cases habort'
  | frees k hat hk hempty => exact h.frees hk hempty

/-- **Who is told that the process goes away.** When no write fails, everything that was queued on
the connections `config_purge` closes was handed to the socket before exactly when there was nothing
to say: no connection had a client, and none had output left to send. (`hsent`: the socket has taken
no more than there was.) -/
theorem purge_delivers_iff (p q : Process) (n : Nat)
    (hw : ∀ k ∈ p.scFcgiSocks.members, false ∉ k.fcgi.writes)
    (hsent : ∀ k ∈ p.scFcgiSocks.members, k.fcgi.sent ≤ k.fcgi.output.length)
    (hpurge : configPurge n p = some q) :
    (∀ f ∈ q.gone.drop p.gone.length, f.sent = f.output.length) ↔
      ∀ k ∈ p.scFcgiSocks.members,
        k.fcgi.fcgClients = [] ∧ k.fcgi.sent = k.fcgi.output.length := by
  obtain ⟨t, ht, hpt, hempty⟩ := configPurge_rule (I := PurgedTo p)
    (fun s s' h hcase => h.round hcase) (.refl hw) (Nat.le_max_left p.rounds n)
  have hq : q.gone = t.gone := by
    rw [configPurge_mono hpurge (Nat.le_max_right p.rounds n)] at ht
    rw [Option.some.inj ht, purgeConfig_gone]
  rw [hq]
  constructor
  · intro hall k hk
    rcases hpt.all k hk with ⟨j, hj, -⟩ | ⟨g, hg, ⟨hgs, hcase⟩, hclients⟩
    · rw [hempty] at hj
      cases hj
    · have hgsent := hall g hg
      rcases hcase with rfl | ⟨-, hlt⟩
      · exact ⟨hclients, hgsent⟩
      · have := hsent k hk
        omega
  · intro hall g hg
    obtain ⟨fs, hgone, hfs⟩ := hpt.gone
    rw [hgone, List.drop_left] at hg
    obtain ⟨j, hj, ⟨-, hcase⟩, -⟩ := hfs g hg
    obtain ⟨hnone, hsent⟩ := hall j hj
    rcases hcase with rfl | ⟨hne, -⟩
    · exact hsent
    · exact absurd hnone hne

/-- The process is configured and a web server connects. -/
def connectEvents : List ProcEvent :=
  [.imsg (.cfgSock 3), .imsg (.cfgDone 0), .acceptable ⟨0, 1024, .ok 4, true, true, [], []⟩]

/-- A process with one connection, on which nothing has happened. -/
def idleProcess : Process := (Process.new 255 1024).run connectEvents

/-- The connection nothing was said on is closed and nothing is lost. -/
theorem idle_connection_loses_nothing :
    (configPurge 4 idleProcess).isSome = true ∧
      ∀ f ∈ ((configPurge 4 idleProcess).getD idleProcess).gone.drop idleProcess.gone.length,
        f.sent = f.output.length := by
  have hpurge : configPurge 4 idleProcess
      = some ((configPurge 4 idleProcess).getD idleProcess) := by decide
  exact ⟨by decide, (purge_delivers_iff idleProcess _ 4 (by decide) (by decide) hpurge).mpr
    (by decide)⟩

/-- A web server has begun a request when the process is told to reset: the connection is closed
with the whole of its `FCGI_END_REQUEST` unsent. -/
theorem aborted_request_not_told :
    let p := (Process.new 255 1024).run (connectEvents
      ++ [.sock 1 (.arrive [1, 1, 0, 1, 0, 8, 0, 0, 0, 1, 1, 0, 0, 0, 0, 0]), .sock 1 (.read []),
        .sock 1 (.read [])])
    p.gone = [] ∧ ((p.handle (.imsg .ctlReset)).gone.map fun f => (f.output, f.sent))
      = [([1, 3, 0, 1, 0, 8, 0, 0] ++ endReqBody 1 overloaded, 0)] := by
  decide

end Galileo
