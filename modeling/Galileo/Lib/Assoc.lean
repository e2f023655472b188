import Mathlib.Data.List.Basic
import Mathlib.Data.List.Nodup

/-!
# Association lists with distinct keys

A list of pairs in which no key occurs twice is a finite map, and `List.lookup` reads it. A key is
set by taking its pair out and appending the new one, so the list stays in the order in which the
keys were last set.
-/

set_option autoImplicit false

namespace Lib.Assoc

variable {α β : Type} [BEq α] [LawfulBEq α] {l : List (α × β)}

/-- No key occurs twice. -/
def Distinct (l : List (α × β)) : Prop := (l.map Prod.fst).Nodup

/-- Set a key. -/
def put (k : α) (v : β) (l : List (α × β)) : List (α × β) := l.eraseP (·.1 == k) ++ [(k, v)]

theorem mem_iff_lookup (h : Distinct l) {k : α} {v : β} : (k, v) ∈ l ↔ l.lookup k = some v := by
  constructor
  · intro hmem
    obtain ⟨l₁, l₂, rfl⟩ := List.append_of_mem hmem
    refine List.lookup_eq_some_iff.mpr ⟨l₁, l₂, rfl, fun p hp => ?_⟩
    rw [Distinct, List.map_append, List.nodup_append] at h
    exact bne_iff_ne.mpr (h.2.2 p.1 (List.mem_map_of_mem hp) k (by simp)).symm
  · intro hlook
    obtain ⟨l₁, l₂, rfl, -⟩ := List.lookup_eq_some_iff.mp hlook
    simp

theorem lookup_eraseP_ne {k k' : α} (h : k' ≠ k) (l : List (α × β)) :
    (l.eraseP (·.1 == k)).lookup k' = l.lookup k' := by
  induction l with
  | nil => rfl
  | cons p l ih =>
    by_cases hp : p.1 = k
    · have hne : (k' == p.1) = false := beq_false_of_ne fun he => h (he.trans hp)
      rw [List.eraseP_cons_of_pos (by simpa using hp), List.lookup_cons, hne]
    · rw [List.eraseP_cons_of_neg (by simpa using hp), List.lookup_cons, List.lookup_cons, ih]

theorem not_mem_eraseP (h : Distinct l) (k : α) : k ∉ (l.eraseP (·.1 == k)).map Prod.fst := by
  induction l with
  | nil => exact List.not_mem_nil
  | cons p l ih =>
    have hcons := List.nodup_cons.mp h
    by_cases hp : p.1 = k
    · rw [List.eraseP_cons_of_pos (by simpa using hp), ← hp]
      exact hcons.1
    · rw [List.eraseP_cons_of_neg (by simpa using hp), List.map_cons, List.mem_cons, not_or]
      exact ⟨fun he => hp he.symm, ih hcons.2⟩

theorem Distinct.put (h : Distinct l) (k : α) (v : β) : Distinct (put k v l) := by
  rw [Distinct, Assoc.put, List.map_append, List.map_singleton, List.nodup_append]
  refine ⟨h.sublist (List.eraseP_sublist.map _), List.nodup_singleton _, fun a ha b hb he => ?_⟩
  rw [he, List.mem_singleton.mp hb] at ha
  exact not_mem_eraseP h k ha

theorem lookup_put_self (h : Distinct l) (k : α) (v : β) : (put k v l).lookup k = some v := by
  rw [Assoc.put, List.lookup_append]
  have hnone : (l.eraseP (·.1 == k)).lookup k = none := by
    refine List.lookup_eq_none_iff.mpr fun p hp => bne_iff_ne.mpr fun he => not_mem_eraseP h k ?_
    exact List.mem_map.mpr ⟨p, hp, he.symm⟩
  rw [hnone, Option.none_or, List.lookup_cons, beq_self_eq_true]

theorem lookup_put_ne {k k' : α} (hne : k' ≠ k) (v : β) (l : List (α × β)) :
    (put k v l).lookup k' = l.lookup k' := by
  rw [Assoc.put, List.lookup_append, lookup_eraseP_ne hne, List.lookup_cons, beq_false_of_ne hne]
  exact Option.or_none

omit [BEq α] [LawfulBEq α] in
/-- What a filter leaves of a map. -/
theorem Distinct.filter (h : Distinct l) (p : α × β → Bool) : Distinct (l.filter p) :=
  h.sublist (List.filter_sublist.map _)

theorem lookup_filter (h : Distinct l) (p : α × β → Bool) (k : α) :
    (l.filter p).lookup k = (l.lookup k).filter fun v => p (k, v) := by
  refine Option.ext fun v => ?_
  rw [← mem_iff_lookup (h.filter p), List.mem_filter, mem_iff_lookup h, Option.filter_eq_some_iff]

end Lib.Assoc
