import Galileo.Lib.Run
import Mathlib.Order.OrderIsoNat

/-!
# Endless runs

A run without an end is a sequence of events, and what is said about it is said about its first `n`
events. `settles` is the rule by which something is shown to come about: when every change is a step
down in a well-founded order, there are no changes from some time on; what is left is to show that
only the goal lets a fair run stand still.
-/

set_option autoImplicit false

namespace Lib.Run

variable {S E : Type}

/-- The first events of an endless run. -/
def first (es : Nat → E) (n : Nat) : List E := (List.range n).map es

theorem first_succ (es : Nat → E) (n : Nat) : first es (n + 1) = first es n ++ [es n] := by
  rw [first, List.range_succ, List.map_append]
  rfl

theorem first_add (es : Nat → E) (n m : Nat) :
    first es (n + m) = first es n ++ first (fun i => es (n + i)) m := by
  rw [first, List.range_add, List.map_append, List.map_map]
  rfl

theorem run_first_succ (step : S → E → S) (s : S) (es : Nat → E) (n : Nat) :
    run step s (first es (n + 1)) = step (run step s (first es n)) (es n) := by
  rw [first_succ, run_append]
  rfl

/-- What is possible from some time on happens at some time. -/
def WeaklyFair (s : Nat → S) (es : Nat → E) (possible : S → Prop) (happens : E → Prop) : Prop :=
  ∀ n, (∀ m, n ≤ m → possible (s m)) → ∃ m, n ≤ m ∧ happens (es m)

/-- **What is ranked settles.** -/
theorem settles {V R : Type} [PartialOrder R] [WellFoundedLT R] (view : Nat → V) {rank : V → R}
    {start : Nat}
    (h : ∀ n, start ≤ n → view (n + 1) = view n ∨ rank (view (n + 1)) < rank (view n)) :
    ∃ last, start ≤ last ∧ ∀ n, last ≤ n → view n = view last := by
  have hanti : Antitone fun n => rank (view (start + n)) := by
    refine antitone_nat_of_succ_le fun n => ?_
    rcases h (start + n) (Nat.le_add_right start n) with hsame | hless
    · exact le_of_eq (congrArg rank hsame)
    · exact le_of_lt hless
  obtain ⟨m, hm⟩ := WellFoundedLT.antitone_chain_condition hanti
  refine ⟨start + m, Nat.le_add_right start m, fun n hn => ?_⟩
  induction n, hn using Nat.le_induction with
  | base => rfl
  | succ n hn ih =>
    rcases h n (Nat.le_trans (Nat.le_add_right start m) hn) with hsame | hless
    · exact hsame.trans ih
    · -- the rank has reached its last value
      have hlast := hm (n + 1 - start) (by omega)
      have hnow : start + (n + 1 - start) = n + 1 := by omega
      rw [hnow] at hlast
      rw [ih, hlast] at hless
      exact absurd hless (lt_irrefl _)

end Lib.Run
