import Galileo.Model.Sockets
import Galileo.Proof.Purge

/-!
# The order of the connections

Ids come from a counter that wraps. How far behind the counter an id is (`age`) does not care for
the wrap, and as long as all ages are below `2^31` the comparison is the difference of two ages: an
order, so the splay tree does what a splay tree does. A connection that stays open for `2^31` others
is in front of the new one and behind it at once.

The tree of `Galileo.Model.Process` is a list without an order. As long as the ids are near it is
that splay tree (`tree_backed`).
-/

set_option autoImplicit false

namespace Galileo

open Lib Lib.Splay

variable {s : Socks} {k : FcgiSock}

/-- The id that comes next is not near. -/
theorem ne_next_of_near {counter id : UInt32} (h : (counter - id).toNat < 2 ^ 31) :
    id ≠ counter + 1 := by
  rintro rfl
  have hlast : counter - (counter + 1) = 2 ^ 32 - 1 := by grind
  rw [hlast] at h
  exact absurd h (by decide)

namespace Socks

/-- How many ids were given since. -/
def age (s : Socks) (k : FcgiSock) : Nat := (s.proxyFcgId - k.fcgId).toNat

/-- No connection is too far behind the id that comes next. -/
def Near (s : Socks) : SockEvent → Prop
  | .accept _ => ∀ k ∈ s.live, (s.proxyFcgId + 1 - k.fcgId).toNat < 2 ^ 31
  | _ => True

/-- The comparison is an order on the live connections, the tree has each of them once, and a
removal takes out the one it is called for. -/
structure Held (s : Socks) : Prop where
  order : OrderOn fcgiCmp (· ∈ s.live)
  members : s.scFcgiSocks.toList.Perm s.live
  once : s.live.Nodup
  removes : ∀ k ∈ s.live,
    (Splay.remove fcgiCmp k s.scFcgiSocks).toList = s.scFcgiSocks.toList.erase k

/-! ## Ages -/

theorem toInt_sub {x y : UInt32} (hx : x.toNat < 2 ^ 31) (hy : y.toNat < 2 ^ 31) :
    (y - x).toBitVec.toInt = (y.toNat : Int) - x.toNat := by
  have hsub : (y - x).toBitVec.toNat = (2 ^ 32 - x.toNat + y.toNat) % 2 ^ 32 := UInt32.toNat_sub y x
  rw [BitVec.toInt_eq_toNat_cond, hsub]
  split <;> omega

/-- The comparison of two ids is the difference of their ages. -/
theorem fcgiCmp_eq {a b : FcgiSock} (ha : s.age a < 2 ^ 31) (hb : s.age b < 2 ^ 31) :
    fcgiCmp a b = (s.age b : Int) - s.age a := by
  have hdiff : a.fcgId - b.fcgId = (s.proxyFcgId - b.fcgId) - (s.proxyFcgId - a.fcgId) := by
    grind
  rw [fcgiCmp, hdiff, toInt_sub ha hb]
  rfl

theorem fcgId_eq_of_age {a b : FcgiSock} (h : s.age a = s.age b) : a.fcgId = b.fcgId := by
  have hsub : s.proxyFcgId - a.fcgId = s.proxyFcgId - b.fcgId := UInt32.toNat_inj.mp h
  grind

/-- Ids that are near and different are in order. -/
structure Spread (s : Socks) : Prop where
  near : ∀ k ∈ s.live, s.age k < 2 ^ 31
  ids : (s.live.map (·.fcgId)).Nodup

theorem Spread.order (h : s.Spread) : OrderOn fcgiCmp (· ∈ s.live) where
  eq a b ha hb := by
    rw [fcgiCmp_eq (h.near a ha) (h.near b hb)]
    constructor
    · intro hzero
      exact List.inj_on_of_nodup_map h.ids ha hb (fcgId_eq_of_age (s := s) (by omega))
    · rintro rfl
      omega
  antisymm a b ha hb := by
    rw [fcgiCmp_eq (h.near a ha) (h.near b hb), fcgiCmp_eq (h.near b hb) (h.near a ha)]
    omega
  trans a b d ha hb hd := by
    rw [fcgiCmp_eq (h.near a ha) (h.near b hb), fcgiCmp_eq (h.near b hb) (h.near d hd),
      fcgiCmp_eq (h.near a ha) (h.near d hd)]
    omega

/-! ## Steps -/

structure Good (s : Socks) : Prop extends Spread s where
  sorted : Sorted fcgiCmp s.scFcgiSocks.toList
  members : s.scFcgiSocks.toList.Perm s.live

theorem Good.removes (h : s.Good) (hk : k ∈ s.live) :
    (Splay.remove fcgiCmp k s.scFcgiSocks).toList = s.scFcgiSocks.toList.erase k :=
  remove_spec h.toSpread.order h.sorted (fun _ ha => h.members.mem_iff.mp ha)
    (h.members.mem_iff.mpr hk)

theorem Good.held (h : s.Good) : s.Held where
  order := h.toSpread.order
  members := h.members
  once := h.ids.of_map
  removes _ hk := h.removes hk

/-- A connection is freed. -/
theorem Good.free (h : s.Good) (hk : k ∈ s.live) : (s.free k).Good where
  near _ ha := h.near _ (List.mem_of_mem_erase ha)
  ids := h.ids.sublist (List.erase_sublist.map _)
  sorted := by
    show Sorted fcgiCmp (Splay.remove fcgiCmp k s.scFcgiSocks).toList
    rw [h.removes hk]
    exact h.sorted.sublist List.erase_sublist
  members := by
    show (Splay.remove fcgiCmp k s.scFcgiSocks).toList.Perm (s.live.erase k)
    rw [h.removes hk]
    exact h.members.erase k

/-- The counter goes on, with every connection still near. -/
theorem Spread.next (h : s.Spread)
    (hnear : ∀ k ∈ s.live, (s.proxyFcgId + 1 - k.fcgId).toNat < 2 ^ 31) :
    Spread { s with proxyFcgId := s.proxyFcgId + 1 } ∧
      s.proxyFcgId + 1 ∉ s.live.map (·.fcgId) := by
  refine ⟨⟨hnear, h.ids⟩, fun hmem => ?_⟩
  obtain ⟨k, hk, hid⟩ := List.mem_map.mp hmem
  exact ne_next_of_near (h.near k hk) hid

theorem Good.accept (h : s.Good) (bev : Bool) (hnear : s.Near (.accept bev)) :
    (s.step (.accept bev)).Good := by
  obtain ⟨hspread, hfresh⟩ := h.toSpread.next hnear
  cases bev with
  | false => exact ⟨⟨hspread.near, h.ids⟩, h.sorted, h.members⟩
  | true =>
    -- the new connection has age 0
    have hall : Spread (s.step (.accept true)) := by
      refine ⟨fun k hk => ?_, ?_⟩
      · rcases List.mem_append.mp hk with hk | hk
        · exact hspread.near k hk
        · rw [List.mem_singleton.mp hk]
          show (s.proxyFcgId + 1 - (s.proxyFcgId + 1)).toNat < 2 ^ 31
          rw [UInt32.sub_self]
          decide
      · show ((s.live ++ [(⟨s.proxyFcgId + 1, s.accepted⟩ : FcgiSock)]).map FcgiSock.fcgId).Nodup
        rw [List.map_append, List.nodup_append]
        refine ⟨h.ids, List.nodup_singleton _, fun a ha b hb he => hfresh ?_⟩
        rw [he, List.mem_singleton.mp hb] at ha
        exact ha
    have hnew : (⟨s.proxyFcgId + 1, s.accepted⟩ : FcgiSock) ∉ s.scFcgiSocks.toList := by
      intro hmem
      exact hfresh (List.mem_map_of_mem (h.members.mem_iff.mp hmem))
    have hinsert := insert_spec hall.order h.sorted
      (fun a ha => List.mem_append_left _ (h.members.mem_iff.mp ha))
      (List.mem_append_right _ (List.mem_singleton.mpr rfl)) hnew
    refine ⟨hall, hinsert.1, hinsert.2.trans ?_⟩
    exact (h.members.cons _).trans (List.perm_append_singleton _ _).symm

/-- **One step.** -/
theorem Good.step (h : s.Good) (e : SockEvent) (hnear : s.Near e) : (s.step e).Good := by
  cases e with
  | accept bev => exact h.accept bev hnear
  | close serial =>
    rw [Socks.step]
    cases hfind : s.live.find? (·.serial == serial) with
    | none => exact h
    | some k => exact h.free (List.mem_of_find?_eq_some hfind)
  | purge =>
    rw [Socks.step]
    by_cases hnil : s.scFcgiSocks = .nil
    · rw [hnil]
      exact h
    · obtain ⟨x, r, hmin, hlist⟩ := splayMin_eq hnil
      rw [hmin]
      have hsame : (Splay.node .nil x r).toList = s.scFcgiSocks.toList := hlist
      have hgood : Good { s with scFcgiSocks := .node .nil x r } := by
        refine ⟨⟨h.near, h.ids⟩, ?_, ?_⟩
        · show Sorted fcgiCmp (Splay.node .nil x r).toList
          rw [hsame]
          exact h.sorted
        · show (Splay.node .nil x r).toList.Perm s.live
          rw [hsame]
          exact h.members
      refine hgood.free (h.members.mem_iff.mp ?_)
      rw [← hlist]
      exact List.mem_cons_self

end Socks

/-- **The tree holds the connections.** In every run in which no connection stays open while `2^31`
ids are given, the comparison is an order on the live connections, and the tree has each of them
exactly once and lets go of the right one. -/
theorem connections_held (es : List SockEvent)
    (hnear : Run.Steps Socks.step Socks.Near Socks.start es) :
    (Run.run Socks.step Socks.start es).Held := by
  refine Socks.Good.held (Run.invariant (fun s e h hc => h.step e hc) ?_ hnear)
  exact ⟨⟨fun _ h => (nomatch h), List.nodup_nil⟩, List.Pairwise.nil, List.Perm.refl _⟩

/-- Two connections, of which the first one ends. -/
theorem two_connections_held :
    (Run.run Socks.step Socks.start [.accept true, .accept true, .close 0]).Held := by
  refine connections_held _ ⟨fun _ h => (nomatch h), fun k hk => ?_, trivial, trivial⟩
  rw [List.mem_singleton.mp hk]
  decide

/-! ## Too many ids -/

namespace Socks

/-- The first connection is the only one, and so many others have come and gone. -/
def lone (n : Nat) : Socks :=
  ⟨UInt32.ofNat (n + 1), .node .nil ⟨1, 0⟩ .nil, [⟨1, 0⟩], n + 1⟩

theorem fcgiCmp_first {n : Nat} (hn : n + 1 < 2 ^ 31) (i j : Nat) :
    fcgiCmp ⟨UInt32.ofNat (n + 1) + 1, i⟩ ⟨1, j⟩ = n + 1 := by
  have hid : UInt32.ofNat (n + 1) + 1 - 1 = UInt32.ofNat (n + 1) := by grind
  have hnat : (UInt32.ofNat (n + 1)).toBitVec.toNat = n + 1 := by
    show (UInt32.ofNat (n + 1)).toNat = n + 1
    rw [UInt32.toNat_ofNat']
    omega
  rw [fcgiCmp, hid, BitVec.toInt_eq_toNat_cond, hnat]
  split <;> omega

/-- One more comes and goes. -/
theorem step_lone {n : Nat} (hn : n + 1 < 2 ^ 31) :
    ((lone n).step (.accept true)).step (.close (n + 1)) = lone (n + 1) := by
  have hid : UInt32.ofNat (n + 1) + 1 = UInt32.ofNat (n + 1 + 1) := by
    rw [UInt32.ofNat_add (n + 1) 1]
    rfl
  have hfirst := fcgiCmp_first hn (n + 1) 0
  rw [hid] at hfirst
  have hself : fcgiCmp ⟨UInt32.ofNat (n + 1 + 1), n + 1⟩ ⟨UInt32.ofNat (n + 1 + 1), n + 1⟩ = 0 := by
    rw [fcgiCmp, UInt32.sub_self]
    rfl
  have hneg : ¬((n : Int) + 1 < 0) := by omega
  have hpos : (0 : Int) < n + 1 := by omega
  -- behind the first one, and out again
  have hinsert : Splay.insert fcgiCmp ⟨UInt32.ofNat (n + 1 + 1), n + 1⟩ (.node .nil ⟨1, 0⟩ .nil) =
      .node (.node .nil ⟨1, 0⟩ .nil) ⟨UInt32.ofNat (n + 1 + 1), n + 1⟩ .nil := by
    simp only [Splay.insert, splay, splayLoop, hfirst, if_neg hneg, if_pos hpos, assemble, hangLeft,
      hangRight]
  have hremove : Splay.remove fcgiCmp ⟨UInt32.ofNat (n + 1 + 1), n + 1⟩
      (.node (.node .nil ⟨1, 0⟩ .nil) ⟨UInt32.ofNat (n + 1 + 1), n + 1⟩ .nil) =
        .node .nil ⟨1, 0⟩ .nil := by
    simp only [Splay.remove, splay, splayLoop, hself, hfirst, if_neg hneg, if_pos hpos, assemble,
      hangLeft, hangRight, if_neg (Int.lt_irrefl 0), if_true]
  have hserial : ((0 : Nat) == n + 1) = false := rfl
  simp only [lone, step, if_true, hid, hinsert, List.singleton_append, List.find?_cons, hserial,
    beq_self_eq_true, free, hremove]
  rw [List.erase_cons_tail (by simp), List.erase_cons_head]

/-- As long as there are fewer than `2^31` of them. -/
theorem exists_run_lone (n : Nat) (hn : n < 2 ^ 31) :
    ∃ es, Run.run step start es = lone n := by
  induction n with
  | zero => exact ⟨[.accept true], by decide⟩
  | succ n ih =>
    obtain ⟨es, hes⟩ := ih (Nat.lt_of_succ_lt hn)
    refine ⟨es ++ [.accept true, .close (n + 1)], ?_⟩
    rw [Run.run_append, hes]
    exact step_lone hn

end Socks

/-- The first connection is still open when `2^31` others have been accepted: it is in front of the
last one and the last one in front of it, and its removal does not find it. -/
theorem old_connection_lost :
    ∃ es, ∃ a ∈ (Run.run Socks.step Socks.start es).live,
      ∃ b ∈ (Run.run Socks.step Socks.start es).live, fcgiCmp a b < 0 ∧ fcgiCmp b a < 0 ∧
        a ∈ (Splay.remove fcgiCmp a (Run.run Socks.step Socks.start es).scFcgiSocks).toList := by
  obtain ⟨es, hes⟩ := Socks.exists_run_lone (2 ^ 31 - 1) (by decide)
  refine ⟨es ++ [.accept true], ?_⟩
  rw [Run.run_append, hes]
  exact ⟨⟨1, 0⟩, by decide, ⟨2 ^ 31 + 1, 2 ^ 31⟩, by decide, by decide, by decide, by decide⟩

/-! ## The tree of `Model.Process` -/

/-- Of the ids of a process, none is too far behind the one that comes next. -/
def Process.IdsNear (p : Process) : Prop :=
  ∀ k ∈ p.scFcgiSocks.members, (p.proxyFcgId + 1 - k.fcgId).toNat < 2 ^ 31

instance (p : Process) : Decidable p.IdsNear := inferInstanceAs (Decidable (∀ k ∈ _, _))

/-- The same when one is to be given. -/
def Process.Near (p : Process) : ProcEvent → Prop
  | .acceptable _ => p.IdsNear
  | _ => True

section Backs

/-- The splay tree and the tree of `Model.Process` have the same ids. -/
def Backs (s : Socks) (t : Tree Sock Sock.fcgId) : Prop :=
  (s.scFcgiSocks.toList.map FcgiSock.fcgId).Perm (t.members.map Sock.fcgId)

/-- A connection ends. -/
theorem Backs.free {t : Tree Sock Sock.fcgId} (h : Backs s t) (hs : s.Good) (hk : k ∈ s.live) :
    Backs (s.free k) (t.remove k.fcgId) := by
  have hgood := hs.free hk
  have hnodup : ∀ {s : Socks}, s.Good → (s.scFcgiSocks.toList.map FcgiSock.fcgId).Nodup :=
    fun hs => (hs.members.map _).nodup_iff.mpr hs.ids
  refine (List.perm_ext_iff_of_nodup (hnodup hgood) (t.remove k.fcgId).nodup).mpr fun id => ?_
  show id ∈ (Splay.remove fcgiCmp k s.scFcgiSocks).toList.map FcgiSock.fcgId ↔ _
  have hsame := h.mem_iff (a := id)
  have hkt : k ∈ s.scFcgiSocks.toList := hs.members.mem_iff.mpr hk
  rw [hs.removes hk, ((hnodup hs).of_map).erase_eq_filter]
  constructor
  · intro hid
    obtain ⟨a, ha, rfl⟩ := List.mem_map.mp hid
    rw [List.mem_filter] at ha
    obtain ⟨b, hb, hab⟩ := List.mem_map.mp (hsame.mp (List.mem_map_of_mem ha.1))
    refine List.mem_map.mpr ⟨b, Tree.mem_remove.mpr ⟨hb, fun he => ?_⟩, hab⟩
    have hne : a ≠ k := by simpa using ha.2
    exact hne (List.inj_on_of_nodup_map (hnodup hs) ha.1 hkt (hab.symm.trans he))
  · intro hid
    obtain ⟨b, hb, rfl⟩ := List.mem_map.mp hid
    obtain ⟨hbt, hne⟩ := Tree.mem_remove.mp hb
    obtain ⟨a, ha, hab⟩ := List.mem_map.mp (hsame.mpr (List.mem_map_of_mem hbt))
    refine List.mem_map.mpr ⟨a, List.mem_filter.mpr ⟨ha, ?_⟩, hab⟩
    have hak : a ≠ k := by
      rintro rfl
      exact hne hab.symm
    simpa using hak

/-- A connection is accepted. -/
theorem Backs.accept {t : Tree Sock Sock.fcgId} (h : Backs s t) (hs : s.Good)
    (hnear : s.Near (.accept true)) {k : Sock} (hk : k.fcgId = s.proxyFcgId + 1) :
    Backs (s.step (.accept true)) (t.insert k) := by
  have hfresh := (hs.toSpread.next hnear).2
  have hnone : t.find k.fcgId = none := by
    rw [Tree.find_eq_none, hk, ← h.mem_iff, (hs.members.map _).mem_iff]
    exact hfresh
  have hgood := (hs.accept true hnear).members.map FcgiSock.fcgId
  refine hgood.trans ?_
  rw [Tree.insert_of_none hnone, List.map_cons, hk]
  show ((s.live ++ [(⟨s.proxyFcgId + 1, s.accepted⟩ : FcgiSock)]).map FcgiSock.fcgId).Perm _
  rw [List.map_append]
  refine (List.perm_append_singleton _ _).trans (List.Perm.cons _ ?_)
  exact ((hs.members.map _).symm.trans h)

/-- The connections are numbered. -/
structure Socks.Numbered (s : Socks) : Prop where
  serials : (s.live.map FcgiSock.serial).Nodup
  lt : ∀ k ∈ s.live, k.serial < s.accepted

theorem Socks.Numbered.free (h : s.Numbered) (k : FcgiSock) : (s.free k).Numbered where
  serials := h.serials.sublist (List.erase_sublist.map _)
  lt := fun _ hj => h.lt _ (List.mem_of_mem_erase hj)

theorem Socks.Numbered.accept (h : s.Numbered) (bev : Bool) : (s.step (.accept bev)).Numbered := by
  cases bev with
  | false => exact ⟨h.serials, fun k hk => Nat.lt_succ_of_lt (h.lt k hk)⟩
  | true =>
    constructor
    · show ((s.live ++ [(⟨s.proxyFcgId + 1, s.accepted⟩ : FcgiSock)]).map FcgiSock.serial).Nodup
      rw [List.map_append, List.nodup_append]
      refine ⟨h.serials, List.nodup_singleton _, fun a ha b hb hab => ?_⟩
      obtain ⟨k, hk, rfl⟩ := List.mem_map.mp ha
      have hlt := h.lt k hk
      rw [hab, List.mem_singleton.mp hb] at hlt
      exact Nat.lt_irrefl _ hlt
    · intro k hk
      rcases List.mem_append.mp hk with hk | hk
      · exact Nat.lt_succ_of_lt (h.lt k hk)
      · rw [List.mem_singleton.mp hk]
        exact Nat.lt_succ_self _

/-- A connection that is closed by its number. -/
theorem Socks.Numbered.step_close (h : s.Numbered) (hk : k ∈ s.live) :
    s.step (.close k.serial) = s.free k := by
  rw [Socks.step]
  cases hfind : s.live.find? (·.serial == k.serial) with
  | none => simpa using List.find?_eq_none.mp hfind k hk
  | some j =>
    have hj : j.serial = k.serial := by simpa using List.find?_some hfind
    rw [List.inj_on_of_nodup_map h.serials (List.mem_of_find?_eq_some hfind) hk hj]

/-- The state of a splay tree that a process with this tree can have. -/
structure Backed (p : Process) (s : Socks) : Prop where
  good : s.Good
  numbered : s.Numbered
  counter : s.proxyFcgId = p.proxyFcgId
  ids : Backs s p.scFcgiSocks

/-- The splay tree has come there by a run of its own. -/
def Process.Matched (p : Process) : Prop :=
  ∃ ss, Run.Steps Socks.step Socks.Near Socks.start ss ∧
    Backed p (Run.run Socks.step Socks.start ss)

variable {p q : Process}

theorem Process.Matched.snoc {ss : List SockEvent}
    (hss : Run.Steps Socks.step Socks.Near Socks.start ss) {e : SockEvent}
    (he : (Run.run Socks.step Socks.start ss).Near e)
    (h : Backed p ((Run.run Socks.step Socks.start ss).step e)) : p.Matched := by
  refine ⟨ss ++ [e], Run.Steps.append.mpr ⟨hss, he, trivial⟩, ?_⟩
  rw [Run.run_append]
  exact h

/-- Nothing happens to the ids. -/
theorem Process.Matched.same (h : p.Matched) (hcounter : q.proxyFcgId = p.proxyFcgId)
    (hids : q.scFcgiSocks.members.map Sock.fcgId = p.scFcgiSocks.members.map Sock.fcgId) :
    q.Matched := by
  obtain ⟨ss, hss, hb⟩ := h
  exact ⟨ss, hss, hb.good, hb.numbered, hb.counter.trans hcounter.symm,
    List.Perm.trans hb.ids (.of_eq hids.symm)⟩

theorem Process.Matched.store (h : p.Matched) (k : Sock) : (p.store k).Matched :=
  h.same rfl (Tree.map_store _ _)

/-- A connection ends, one way or another. -/
theorem Process.Matched.remove (h : p.Matched) {k : Sock} (hk : k ∈ p.scFcgiSocks.members)
    (hcounter : q.proxyFcgId = p.proxyFcgId) (hq : q.scFcgiSocks = p.scFcgiSocks.remove k.fcgId) :
    q.Matched := by
  obtain ⟨ss, hss, hb⟩ := h
  obtain ⟨a, ha, hid⟩ := List.mem_map.mp (hb.ids.mem_iff.mpr (List.mem_map_of_mem hk))
  have hlive := hb.good.members.mem_iff.mp ha
  refine .snoc hss (e := .close a.serial) trivial ?_
  rw [hb.numbered.step_close hlive]
  refine ⟨hb.good.free hlive, hb.numbered.free a, hb.counter.trans hcounter.symm, ?_⟩
  rw [hq, ← hid]
  exact hb.ids.free hb.good hlive

/-- An id is given, and a connection may come of it. -/
theorem Process.Matched.accept (h : p.Matched) (hnear : p.IdsNear) (bev : Bool) {k : Sock}
    (hk : k.fcgId = p.proxyFcgId + 1) (hcounter : q.proxyFcgId = p.proxyFcgId + 1)
    (hq : q.scFcgiSocks = if bev then p.scFcgiSocks.insert k else p.scFcgiSocks) : q.Matched := by
  obtain ⟨ss, hss, hb⟩ := h
  have hlive : (Run.run Socks.step Socks.start ss).Near (.accept bev) := fun a ha => by
    obtain ⟨j, hj, hid⟩ := List.mem_map.mp
      (hb.ids.mem_iff.mp (List.mem_map_of_mem (hb.good.members.mem_iff.mpr ha)))
    rw [hb.counter, ← hid]
    exact hnear j hj
  refine .snoc hss hlive ⟨hb.good.accept bev hlive, hb.numbered.accept bev, ?_, ?_⟩
  · rw [hcounter, ← hb.counter]
    cases bev <;> rfl
  · rw [hq]
    cases bev with
    | false => exact hb.ids
    | true => exact hb.ids.accept hb.good hlive (by rw [hk, hb.counter])

theorem Process.Matched.fcgiAccept (h : p.Matched) (hnear : p.IdsNear) (a : AcceptEnv) :
    (fcgiAccept false a p).Matched := by
  unfold Galileo.fcgiAccept
  dsimp only
  rw [if_neg Bool.false_ne_true]
  split
  · exact h.same rfl rfl
  · exact h.same rfl rfl
  split
  · exact h.same rfl rfl
  split
  · exact h.accept hnear false (k := ⟨p.proxyFcgId + 1, Fcgi.new a.writes a.asr, []⟩) rfl rfl rfl
  · exact h.accept hnear true rfl rfl rfl

/-- A reset ends every connection. -/
theorem Process.Matched.reset (h : p.Matched) : (configGetreset p).Matched := by
  obtain ⟨q, hq, hmatched, -⟩ := configGetreset_rule (I := Process.Matched)
    (by
      intro s s' hs hcase
      cases hcase with
      | picks _ _ _ => exact hs
      | aborts _ _ _ _ _ _ _ _ => exact hs.store _
      | breaks _ _ _ _ hk _ _ => exact hs.remove hk rfl rfl
      | frees _ _ hk _ => exact hs.remove hk rfl rfl) (p := p) h
  rw [hq]
  refine hmatched.same ?_ ?_ <;>
  · show _ = _
    unfold purgeConfig
    split <;> rfl

theorem Process.Matched.handle (h : p.Matched) {e : ProcEvent} (he : p.Near e) :
    (p.handle e).Matched := by
  cases e with
  | acceptable a =>
    rw [Process.handle]
    split
    · exact h.fcgiAccept he a
    · exact h
  | pauseOver a =>
    rw [Process.handle]
    split
    · exact h.same rfl rfl
    · exact h
  | sock id e =>
    rw [Process.handle, Process.onSock]
    cases hfind : p.scFcgiSocks.find id with
    | none => exact h
    | some k =>
      obtain ⟨hk, -⟩ := Tree.find_some hfind
      dsimp only
      split
      · exact h.remove hk rfl rfl
      · exact h.store _
  | imsg m =>
    cases m with
    | ctlReset => exact h.reset
    | cfgSrv _ | cfgSock _ | cfgDone _ | ctlStart => exact h.same rfl rfl

/-- **The tree of a process is that splay tree**: in every run of a process in which the ids are
near the splay tree has a run of its own, of that kind too, that leaves it with the same ids. -/
theorem tree_backed (hostNameMax pathMax : Nat) {es : List ProcEvent}
    (hes : Run.Steps Process.handle Process.Near (Process.new hostNameMax pathMax) es) :
    ∃ ss, Run.Steps Socks.step Socks.Near Socks.start ss ∧
      Backs (Run.run Socks.step Socks.start ss)
        ((Process.new hostNameMax pathMax).run es).scFcgiSocks := by
  have hnew : (Process.new hostNameMax pathMax).Matched :=
    ⟨[], trivial, ⟨⟨fun _ h => (nomatch h), List.nodup_nil⟩, List.Pairwise.nil, List.Perm.refl _⟩,
      ⟨List.nodup_nil, fun _ h => (nomatch h)⟩, rfl, List.Perm.refl _⟩
  obtain ⟨ss, hss, hb⟩ :=
    Run.invariant (I := Process.Matched) (fun _ _ h he => h.handle he) hnew hes
  exact ⟨ss, hss, hb.ids⟩

end Backs

end Galileo
