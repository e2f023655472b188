import Mathlib.Data.List.Basic
import Mathlib.Data.List.Nodup
import Mathlib.Algebra.BigOperators.Group.List.Basic
import Mathlib.Algebra.GroupWithZero.Nat

/-!
# Trees keyed by a number

A search tree seen from outside (`sys/tree.h`): a set of members in which no two have the same
key. The structure carries that fact, so every look-up has at most one answer and what is stored
or removed is exactly one member.

`sum_store` and `sum_remove` say what one operation does to a sum over the members, which is how
measures and counters over the tree are followed.
-/

set_option autoImplicit false

namespace Lib

variable {α : Type} {a : α}

/-- The member with the least key. -/
def least (key : α → UInt32) : List α → Option α
  | [] => none
  | a :: l =>
      match least key l with
      | none => some a
      | some b => if key b < key a then some b else some a

theorem least_eq_none {key : α → UInt32} {l : List α} : least key l = none ↔ l = [] := by
  cases l with
  | nil => simp [least]
  | cons a l =>
    rw [least]
    cases least key l with
    | none => simp
    | some b => dsimp only; split <;> simp

theorem mem_of_least {key : α → UInt32} {l : List α} (h : least key l = some a) : a ∈ l := by
  induction l generalizing a with
  | nil => cases h
  | cons b l ih =>
    rw [least] at h
    cases hl : least key l with
    | none =>
      rw [hl] at h
      cases h
      exact List.mem_cons_self ..
    | some c =>
      rw [hl] at h
      dsimp only at h
      split at h <;> cases h
      · exact List.mem_cons_of_mem _ (ih hl)
      · exact List.mem_cons_self ..

structure Tree (α : Type) (key : α → UInt32) where
  members : List α
  nodup : (members.map key).Nodup
deriving DecidableEq

namespace Tree

variable {key : α → UInt32} {t : Tree α key} {id : UInt32}

def empty : Tree α key := ⟨[], List.nodup_nil⟩

/-- `SPLAY_FIND`. -/
def find (t : Tree α key) (id : UInt32) : Option α := t.members.find? fun a => key a == id

/-- `SPLAY_MIN`. -/
def min (t : Tree α key) : Option α := least key t.members

/-- `SPLAY_REMOVE`. -/
def remove (t : Tree α key) (id : UInt32) : Tree α key :=
  ⟨t.members.filter fun a => key a != id, t.nodup.sublist (List.filter_sublist.map key)⟩

theorem map_store (l : List α) (a : α) :
    (l.map fun b => if key b == key a then a else b).map key = l.map key := by
  rw [List.map_map]
  refine List.map_congr_left fun b _ => ?_
  simp only [Function.comp_apply]
  split
  · rename_i h
    exact (beq_iff_eq.mp h).symm
  · rfl

/-- A write through a pointer to the member with this key. -/
def store (t : Tree α key) (a : α) : Tree α key :=
  ⟨t.members.map fun b => if key b == key a then a else b, (map_store t.members a).symm ▸ t.nodup⟩

theorem find_eq_none : t.find id = none ↔ id ∉ t.members.map key := by
  rw [find, List.find?_eq_none, List.mem_map]
  constructor
  · rintro h ⟨a, ha, rfl⟩
    exact h a ha (beq_self_eq_true _)
  · intro h a ha hid
    exact h ⟨a, ha, beq_iff_eq.mp hid⟩

/-- `SPLAY_INSERT`: a key that is already there is left alone. -/
def insert (t : Tree α key) (a : α) : Tree α key :=
  if h : t.find (key a) = none then
    ⟨a :: t.members, by
      rw [List.map_cons, List.nodup_cons]
      exact ⟨find_eq_none.mp h, t.nodup⟩⟩
  else t

theorem insert_of_none (h : t.find (key a) = none) : (t.insert a).members = a :: t.members := by
  rw [insert, dif_pos h]

theorem mem_of_insert {a b : α} (h : b ∈ (t.insert a).members) : b = a ∨ b ∈ t.members := by
  rw [insert] at h
  split at h
  · exact List.mem_cons.mp h
  · exact .inr h

theorem find_some (h : t.find id = some a) : a ∈ t.members ∧ key a = id :=
  ⟨List.mem_of_find?_eq_some h, by simpa using List.find?_some h⟩

theorem find_of_mem (h : a ∈ t.members) : t.find (key a) = some a := by
  cases hf : t.find (key a) with
  | none => exact absurd (List.mem_map_of_mem h) (find_eq_none.mp hf)
  | some b =>
    obtain ⟨hb, hkey⟩ := find_some hf
    rw [List.inj_on_of_nodup_map t.nodup hb h hkey]

theorem min_eq_none : t.min = none ↔ t.members = [] := least_eq_none

theorem mem_of_min (h : t.min = some a) : a ∈ t.members := mem_of_least h

theorem mem_remove : a ∈ (t.remove id).members ↔ a ∈ t.members ∧ key a ≠ id := by
  simp [remove]

theorem mem_store {a b : α} (ha : (t.find (key a)).isSome) :
    b ∈ (t.store a).members ↔ b = a ∨ b ∈ t.members ∧ key b ≠ key a := by
  obtain ⟨c, hc⟩ := Option.isSome_iff_exists.mp ha
  obtain ⟨hmem, hkey⟩ := find_some hc
  simp only [store, List.mem_map]
  constructor
  · rintro ⟨d, hd, rfl⟩
    by_cases h : key d = key a
    · exact .inl (by simp [h])
    · exact .inr (by simp [h, hd])
  · rintro (rfl | ⟨hb, hne⟩)
    · exact ⟨c, hmem, by simp [hkey]⟩
    · exact ⟨b, hb, by simp [hne]⟩

theorem find_store (ha : (t.find (key a)).isSome) : (t.store a).find (key a) = some a :=
  find_of_mem ((mem_store ha).mpr (.inl rfl))

section Sums

variable {b : α} (w : α → Nat)

theorem sum_remove (h : b ∈ t.members) :
    ((t.remove (key b)).members.map w).sum + w b = (t.members.map w).sum := by
  obtain ⟨l, hn⟩ := t
  simp only [remove] at h ⊢
  induction l with
  | nil => cases h
  | cons c l ih =>
    rw [List.map_cons, List.nodup_cons] at hn
    rcases List.mem_cons.mp h with rfl | h
    · -- nobody else has the key
      have hrest : l.filter (fun a => key a != key b) = l := by
        refine List.filter_eq_self.mpr fun a ha => bne_iff_ne.mpr fun hkey => hn.1 ?_
        exact hkey ▸ List.mem_map_of_mem ha
      simp [hrest, Nat.add_comm]
    · have hne : key c ≠ key b := fun hkey => hn.1 (hkey ▸ List.mem_map_of_mem h)
      have := ih hn.2 h
      simp only [List.filter_cons, bne_iff_ne.mpr hne, if_true, List.map_cons, List.sum_cons]
      omega

theorem length_remove (h : b ∈ t.members) :
    (t.remove (key b)).members.length + 1 = t.members.length := by
  simpa using sum_remove (fun _ => 1) h

theorem sum_store (h : b ∈ t.members) (hkey : key a = key b) :
    ((t.store a).members.map w).sum + w b = (t.members.map w).sum + w a := by
  obtain ⟨l, hn⟩ := t
  simp only [store] at h ⊢
  induction l with
  | nil => cases h
  | cons c l ih =>
    rw [List.map_cons, List.nodup_cons] at hn
    rcases List.mem_cons.mp h with rfl | h
    · have hrest : (l.map fun d => if key d == key a then a else d) = l := by
        refine (List.map_congr_left fun d hd => if_neg ?_).trans (List.map_id l)
        exact fun hd' => hn.1 (hkey ▸ beq_iff_eq.mp hd' ▸ List.mem_map_of_mem hd)
      rw [List.map_cons, hrest, if_pos (beq_iff_eq.mpr hkey.symm), List.map_cons, List.map_cons,
        List.sum_cons, List.sum_cons]
      omega
    · have hne : ¬ (key c == key a) = true := fun hk =>
        hn.1 ((beq_iff_eq.mp hk).trans hkey ▸ List.mem_map_of_mem h)
      have := ih hn.2 h
      simp only [List.map_cons, if_neg hne, List.sum_cons]
      omega

end Sums

end Tree

end Lib
