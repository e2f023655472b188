import Mathlib.Data.List.Basic

/-!
# Binary search

`bsearch` of the C library: `cmp` compares the key with an element. On a sorted table it finds what
a search from the front finds (`bsearch_eq_find?`); `Ascending` says that the table is sorted as far
as the key can tell.
-/

set_option autoImplicit false

namespace Lib

variable {α : Type} {cmp : α → Ordering} {l : List α}

/-- The loop of `bsearch`. Each round leaves less than half of the table. -/
def bsearchLoop (cmp : α → Ordering) : Nat → List α → Option α
  | 0, _ => none
  | n + 1, l =>
    match l.drop (l.length / 2) with
    | [] => none
    | a :: right =>
      match cmp a with
      | .eq => some a
      | .lt => bsearchLoop cmp n (l.take (l.length / 2))
      | .gt => bsearchLoop cmp n right

def bsearch (cmp : α → Ordering) (l : List α) : Option α := bsearchLoop cmp l.length l

/-- Behind an element that is not below the key all are above it. -/
def Ascending (cmp : α → Ordering) (l : List α) : Prop :=
  l.Pairwise fun a b => cmp a ≠ .gt → cmp b = .lt

theorem Ascending.split {left right : List α} {a : α} (h : Ascending cmp (left ++ a :: right)) :
    Ascending cmp left ∧ Ascending cmp right ∧ (∀ b ∈ left, cmp b ≠ .gt → cmp a = .lt) ∧
      ∀ b ∈ right, cmp a ≠ .gt → cmp b = .lt := by
  obtain ⟨hleft, hrest, hacross⟩ := List.pairwise_append.mp h
  obtain ⟨ha, hright⟩ := List.pairwise_cons.mp hrest
  exact ⟨hleft, hright, fun b hb => hacross b hb a List.mem_cons_self, ha⟩

/-- Nothing is found where all is above the key, or all below. -/
theorem find?_none_of_forall {o : Ordering} (ho : o ≠ .eq) (h : ∀ b ∈ l, cmp b = o) :
    l.find? (fun b => cmp b == .eq) = none := by
  refine List.find?_eq_none.mpr fun b hb heq => ho ?_
  rw [h b hb] at heq
  exact eq_of_beq heq

theorem bsearchLoop_eq_find? {n : Nat} (h : Ascending cmp l) (hn : l.length ≤ n) :
    bsearchLoop cmp n l = l.find? (fun a => cmp a == .eq) := by
  induction n generalizing l with
  | zero =>
    rw [List.eq_nil_of_length_eq_zero (Nat.le_zero.mp hn)]
    rfl
  | succ n ih =>
    have hhalf : l.take (l.length / 2) ++ l.drop (l.length / 2) = l := List.take_append_drop _ _
    have hlen := congrArg List.length hhalf
    rw [bsearchLoop]
    cases hdrop : l.drop (l.length / 2) with
    | nil =>
      have hzero := congrArg List.length hdrop
      rw [List.length_drop, List.length_nil] at hzero
      rw [List.eq_nil_of_length_eq_zero (by omega : l.length = 0)]
      rfl
    | cons a right =>
      rw [hdrop] at hhalf hlen
      rw [List.length_append, List.length_cons, List.length_take] at hlen
      rw [← hhalf] at h
      obtain ⟨hleft, hright, hbelow, habove⟩ := h.split
      have hfind :
          l.find? (fun a => cmp a == .eq) = ((l.take (l.length / 2)).find? fun a => cmp a == .eq).or
          ((a :: right).find? fun a => cmp a == .eq) := by
        rw [← List.find?_append, hhalf]
      rw [hfind]
      dsimp only
      cases hcmp : cmp a with
      | eq =>
        -- all in front of it is below the key
        have hnone : (l.take (l.length / 2)).find? (fun a => cmp a == .eq) = none := by
          refine find?_none_of_forall (o := .gt) Ordering.noConfusion fun b hb => ?_
          by_contra hne
          exact Ordering.noConfusion (hcmp.symm.trans (hbelow b hb hne))
        rw [hnone, Option.none_or, List.find?_cons_of_pos (by rw [hcmp]; rfl)]
      | lt =>
        have hnone : right.find? (fun a => cmp a == .eq) = none :=
          find?_none_of_forall Ordering.noConfusion fun b hb =>
            habove b hb (by rw [hcmp]; exact Ordering.noConfusion)
        rw [ih hleft (by rw [List.length_take]; omega),
          List.find?_cons_of_neg (by rw [hcmp]; exact Bool.noConfusion), hnone, Option.or_none]
      | gt =>
        have hnone : (l.take (l.length / 2)).find? (fun a => cmp a == .eq) = none := by
          refine find?_none_of_forall (o := .gt) Ordering.noConfusion fun b hb => ?_
          by_contra hne
          exact Ordering.noConfusion (hcmp.symm.trans (hbelow b hb hne))
        rw [ih hright (by omega), hnone, Option.none_or,
          List.find?_cons_of_neg (by rw [hcmp]; exact Bool.noConfusion)]

/-- **On a sorted table `bsearch` finds what is there.** -/
theorem bsearch_eq_find? (h : Ascending cmp l) :
    bsearch cmp l = l.find? (fun a => cmp a == .eq) := bsearchLoop_eq_find? h (Nat.le_refl _)

/-- A table sorted by a total order is ascending for every key. -/
theorem ascending_of_sorted {β : Type} [Ord β] [Std.TransOrd β] (f : α → β)
    (h : l.Pairwise fun a b => compare (f a) (f b) = .lt) (key : β) :
    Ascending (fun a => compare key (f a)) l := by
  refine h.imp fun {a b} hab hne => ?_
  have hle : (compare key (f a)).isLE = true := by
    cases hcmp : compare key (f a) with
    | lt => rfl
    | eq => rfl
    | gt => exact absurd hcmp hne
  exact Std.TransCmp.lt_of_isLE_of_lt hle hab

end Lib
