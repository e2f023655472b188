import Mathlib.Logic.Basic

/-!
# Loops

`while (...) ...` as a function of the number of rounds it may take: `round s` is the state after
one more round, or `none` when the condition of the loop does not hold. `loop round n s` is `none`
as long as `n` rounds have not been enough, so a result is always the state in which the loop
really ended.

`loop_of_measure` is the rule for total correctness: a number that goes down with every round is a
number of rounds that is enough, and what every round keeps holds at the end.
-/

set_option autoImplicit false

namespace Lib

variable {S : Type}

def loop (round : S → Option S) : Nat → S → Option S
  | 0, _ => none
  | n + 1, s =>
      match round s with
      | none => some s
      | some s' => loop round n s'

variable {round : S → Option S}

theorem loop_stop {s : S} (h : round s = none) (n : Nat) : loop round (n + 1) s = some s := by
  rw [loop, h]

theorem loop_round {s s' : S} (h : round s = some s') (n : Nat) :
    loop round (n + 1) s = loop round n s' := by
  rw [loop, h]

/-- More rounds than enough are enough. -/
theorem loop_mono {n m : Nat} {s t : S} (h : loop round n s = some t) (hnm : n ≤ m) :
    loop round m s = some t := by
  induction n generalizing m s with
  | zero => simp [loop] at h
  | succ n ih =>
    obtain ⟨m, rfl⟩ : ∃ k, m = k + 1 := ⟨m - 1, by omega⟩
    cases hr : round s with
    | none => rw [loop_stop hr] at h ⊢; exact h
    | some s' =>
      rw [loop_round hr] at h ⊢
      exact ih h (by omega)

/-- **Total correctness.** `μ` goes down with every round and `I` is kept. -/
theorem loop_of_measure {I : S → Prop} (μ : S → Nat)
    (hround : ∀ s s', I s → round s = some s' → I s' ∧ μ s' < μ s) {s : S} (hs : I s) {n : Nat}
    (hn : μ s < n) : ∃ t, loop round n s = some t ∧ I t ∧ round t = none := by
  induction n generalizing s with
  | zero => omega
  | succ n ih =>
    cases hr : round s with
    | none => exact ⟨s, loop_stop hr n, hs, hr⟩
    | some s' =>
      obtain ⟨hI, hlt⟩ := hround s s' hs hr
      rw [loop_round hr]
      exact ih hI (by omega)

end Lib
