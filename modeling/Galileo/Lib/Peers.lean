import Mathlib.Algebra.BigOperators.Group.List.Basic
import Mathlib.Algebra.GroupWithZero.Nat
import Mathlib.Data.List.Basic

/-!
# Numbered peers

A list of peers of which one acts at a time. `Everyone P l` says something about each of them that
may depend on its number; `Everyone.map` and `Everyone.modify` carry it over a step of all of them
and a step of one. `sum_modify` does the same for a quantity summed over the peers.
-/

set_option autoImplicit false

namespace Lib

variable {α β : Type} {P Q : Nat → α → Prop} {l : List α} {f : α → α} {j : Nat} {a : α}

def Everyone (P : Nat → α → Prop) (l : List α) : Prop := ∀ i a, l[i]? = some a → P i a

theorem Everyone.map {R : Nat → β → Prop} {f : α → β} (h : Everyone P l)
    (hf : ∀ i a, P i a → R i (f a)) : Everyone R (l.map f) := by
  intro i b hb
  rw [List.getElem?_map] at hb
  obtain ⟨a, ha, rfl⟩ := Option.map_eq_some_iff.mp hb
  exact hf i a (h i a ha)

theorem Everyone.modify (h : Everyone P l) (hself : ∀ a, l[j]? = some a → P j a → Q j (f a))
    (hother : ∀ i a, i ≠ j → P i a → Q i a) : Everyone Q (l.modify j f) := by
  intro i b hb
  rw [List.getElem?_modify] at hb
  obtain ⟨a, ha, rfl⟩ := Option.map_eq_some_iff.mp hb
  by_cases hij : j = i
  · subst hij
    rw [if_pos rfl]
    exact hself a ha (h j a ha)
  · rw [if_neg hij]
    exact hother i a (Ne.symm hij) (h i a ha)

theorem Everyone.replicate {n : Nat} (h : ∀ i, i < n → P i a) :
    Everyone P (List.replicate n a) := by
  intro i b hb
  rw [List.getElem?_replicate] at hb
  split at hb
  · cases hb
    exact h i ‹_›
  · cases hb

theorem Everyone.mem {R : α → Prop} (h : Everyone (fun _ => R) l) (ha : a ∈ l) : R a := by
  obtain ⟨i, hi⟩ := List.getElem?_of_mem ha
  exact h i a hi

/-- What one peer's step does to a sum over all of them. -/
theorem sum_modify (w : α → Nat) (ha : l[j]? = some a) :
    ((l.modify j f).map w).sum + w a = (l.map w).sum + w (f a) := by
  induction l generalizing j with
  | nil => cases ha
  | cons b l ih =>
    cases j with
    | zero =>
      cases ha
      simp only [List.modify_zero_cons, List.map_cons, List.sum_cons]
      omega
    | succ j =>
      have := ih (j := j) ha
      simp only [List.modify_succ_cons, List.map_cons, List.sum_cons]
      omega

theorem le_sum_of_mem {l : List Nat} {x : Nat} (h : x ∈ l) : x ≤ l.sum := by
  induction l with
  | nil => cases h
  | cons y l ih =>
    rw [List.sum_cons]
    rcases List.mem_cons.mp h with rfl | h
    · omega
    · have := ih h
      omega

/-- A step of one peer that does not show. -/
theorem map_modify {g : α → β} (h : ∀ a, g (f a) = g a) (j : Nat) :
    (l.modify j f).map g = l.map g := by
  refine List.ext_getElem? fun i => ?_
  rw [List.getElem?_map, List.getElem?_map, List.getElem?_modify]
  by_cases hij : j = i
  · cases l[i]? with
    | none => rfl
    | some a => simp [hij, h]
  · cases l[i]? with
    | none => rfl
    | some a => simp [hij]

theorem getElem?_modify_self (ha : l[j]? = some a) : (l.modify j f)[j]? = some (f a) := by
  rw [List.getElem?_modify, ha]
  simp

theorem modify_of_fixed (ha : l[j]? = some a) (hf : f a = a) : l.modify j f = l := by
  refine List.ext_getElem? fun i => ?_
  by_cases hij : j = i
  · subst hij
    rw [getElem?_modify_self ha, hf, ha]
  · rw [List.getElem?_modify]
    simp [hij]

theorem map_modify_of_fixed {g : α → β} (ha : l[j]? = some a) (h : g (f a) = g a) :
    (l.modify j f).map g = l.map g := by
  refine List.ext_getElem? fun i => ?_
  by_cases hij : j = i
  · subst hij
    rw [List.getElem?_map, List.getElem?_map, getElem?_modify_self ha, ha, Option.map_some, h]
    rfl
  · rw [List.getElem?_map, List.getElem?_map, List.getElem?_modify]
    simp [hij]

/-! ## Two lists of peers -/

section Matched

variable {γ δ : Type} {R : Nat → α → β → Prop} {S : Nat → α → β → Prop} {m : List β}

/-- The peers of two lists belong together, number by number. -/
structure Matched (R : Nat → α → β → Prop) (l : List α) (m : List β) : Prop where
  length : l.length = m.length
  rel : ∀ i a b, l[i]? = some a → m[i]? = some b → R i a b

theorem Matched.mono (h : Matched R l m) (hRS : ∀ i a b, l[i]? = some a → R i a b → S i a b) :
    Matched S l m :=
  ⟨h.length, fun i a b ha hb => hRS i a b ha (h.rel i a b ha hb)⟩

theorem Matched.exists_right (h : Matched R l m) {i : Nat} (ha : l[i]? = some a) :
    ∃ b, m[i]? = some b ∧ R i a b := by
  obtain ⟨hi, -⟩ := List.getElem?_eq_some_iff.mp ha
  rw [h.length] at hi
  exact ⟨m[i], List.getElem?_eq_getElem hi, h.rel i a _ ha (List.getElem?_eq_getElem hi)⟩

theorem Matched.map {T : Nat → γ → δ → Prop} {f : α → γ} {g : β → δ} (h : Matched R l m)
    (hfg : ∀ i a b, l[i]? = some a → R i a b → T i (f a) (g b)) :
    Matched T (l.map f) (m.map g) where
  length := by rw [List.length_map, List.length_map, h.length]
  rel i c d hc hd := by
    rw [List.getElem?_map] at hc hd
    obtain ⟨a, ha, rfl⟩ := Option.map_eq_some_iff.mp hc
    obtain ⟨b, hb, rfl⟩ := Option.map_eq_some_iff.mp hd
    exact hfg i a b ha (h.rel i a b ha hb)

theorem Matched.modify {g : β → β} (h : Matched R l m)
    (hself : ∀ a b, l[j]? = some a → m[j]? = some b → R j a b → S j (f a) (g b))
    (hother : ∀ i a b, i ≠ j → R i a b → S i a b) : Matched S (l.modify j f) (m.modify j g) where
  length := by rw [List.length_modify, List.length_modify, h.length]
  rel i a' b' ha' hb' := by
    rw [List.getElem?_modify] at ha' hb'
    obtain ⟨a, ha, rfl⟩ := Option.map_eq_some_iff.mp ha'
    obtain ⟨b, hb, rfl⟩ := Option.map_eq_some_iff.mp hb'
    have hab := h.rel i a b ha hb
    by_cases hij : j = i
    · subst hij
      rw [if_pos rfl, if_pos rfl]
      exact hself a b ha hb hab
    · rw [if_neg hij, if_neg hij]
      exact hother i a b (Ne.symm hij) hab

/-- Something happens to a peer of the first list, and nothing to the other. -/
theorem Matched.modify_left (h : Matched R l m)
    (hself : ∀ a b, l[j]? = some a → R j a b → S j (f a) b)
    (hother : ∀ i a b, i ≠ j → R i a b → S i a b) : Matched S (l.modify j f) m := by
  have hboth := h.modify (g := id) (fun a b ha _ => hself a b ha) hother
  rwa [List.modify_id] at hboth

/-- Something happens to all peers of the first list. -/
theorem Matched.map_left {T : Nat → γ → β → Prop} {f : α → γ} (h : Matched R l m)
    (hf : ∀ i a b, l[i]? = some a → R i a b → T i (f a) b) : Matched T (l.map f) m := by
  have hboth := h.map (g := id) hf
  rwa [List.map_id] at hboth

end Matched

end Lib
