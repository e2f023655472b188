import Mathlib.Logic.Relation

/-!
# Readers of a stream

A reader has a state and a buffer. It is given the stream in chunks: each is appended to the
buffer, and then the reader takes turns, which change its state and take from the buffer. A relation
`R` between states with a buffer says what a turn can do.

Where the stream is cut should not matter. `Natural` is what that takes of a single turn: with more
in the buffer it does the same and leaves the more alone. Then a turn is determined by the
*position* in the stream — the state and all that is still to be read — and two readers that were
given the same stream and can take no more turns are in the same state (`Fed.unique`), although
they may have taken their turns at different times.
-/

set_option autoImplicit false

namespace Lib.Feed

open Relation

variable {σ α : Type}

/-- A turn at a position: some of what is to come is in the buffer. -/
def Turn (R : σ × List α → σ × List α → Prop) (p q : σ × List α) : Prop :=
  ∃ x y r, p.2 = x ++ r ∧ q.2 = y ++ r ∧ R (p.1, x) (q.1, y)

/-- No turn is possible, whatever of the rest of the stream has arrived. -/
def Stuck (R : σ × List α → σ × List α → Prop) (p : σ × List α) : Prop := ∀ q, ¬ Turn R p q

/-- A turn does not depend on what stands behind what it takes. -/
def Natural (R : σ × List α → σ × List α → Prop) : Prop :=
  ∀ s x t p q, R (s, x) p → R (s, x ++ t) q → q = (p.1, p.2 ++ t)

/-- The chunks arrive one by one, and after each the reader takes some turns. -/
inductive Fed (R : σ × List α → σ × List α → Prop) :
    σ × List α → List (List α) → σ × List α → Prop
  | done (p : σ × List α) : Fed R p [] p
  | chunk {s : σ} {x c : List α} {cs : List (List α)} {p q : σ × List α}
      (h : ReflTransGen R (s, x ++ c) q) (hs : Fed R q cs p) : Fed R (s, x) (c :: cs) p

variable {R : σ × List α → σ × List α → Prop}

theorem Turn.of (r : List α) {p q : σ × List α} (h : R p q) :
    Turn R (p.1, p.2 ++ r) (q.1, q.2 ++ r) := ⟨p.2, q.2, r, rfl, rfl, h⟩

/-- Turns on the buffer are turns at the position. -/
theorem turns_of (r : List α) {p q : σ × List α} (h : ReflTransGen R p q) :
    ReflTransGen (Turn R) (p.1, p.2 ++ r) (q.1, q.2 ++ r) :=
  h.lift (fun p => (p.1, p.2 ++ r)) fun _ _ hr => Turn.of r hr

theorem Fed.turns {p q : σ × List α} {cs : List (List α)} (h : Fed R p cs q) :
    ReflTransGen (Turn R) (p.1, p.2 ++ cs.flatten) q := by
  induction h with
  | done p => simpa using ReflTransGen.refl
  | @chunk s x c cs p q h _ ih =>
    have := turns_of cs.flatten h
    simp only [List.append_assoc] at this
    exact this.trans ih

/-- Two turns at one position lead to one position. -/
theorem Natural.rightUnique (hR : Natural R) : Relator.RightUnique (Turn R) := by
  rintro ⟨s, S⟩ ⟨s₁, S₁⟩ ⟨s₂, S₂⟩ ⟨x₁, y₁, r₁, hx₁, hy₁, h₁⟩ ⟨x₂, y₂, r₂, hx₂, hy₂, h₂⟩
  dsimp only at hx₁ hy₁ h₁ hx₂ hy₂ h₂
  subst hx₁ hy₁ hy₂
  -- one of the two buffers starts with the other
  rcases List.append_eq_append_iff.mp hx₂ with ⟨t, rfl, rfl⟩ | ⟨t, rfl, rfl⟩
  · obtain ⟨rfl, rfl⟩ := Prod.mk.inj (hR s x₁ t _ _ h₁ h₂)
    rw [List.append_assoc]
  · obtain ⟨rfl, rfl⟩ := Prod.mk.inj (hR s x₂ t _ _ h₂ h₁)
    rw [List.append_assoc]

theorem Stuck.eq {p q : σ × List α} (hp : Stuck R p) (h : ReflTransGen (Turn R) p q) : p = q := by
  rcases h.cases_head with h | ⟨r, hr, -⟩
  · exact h
  · exact absurd hr (hp r)

/-- **Where the stream is cut does not matter.** -/
theorem Fed.unique (hR : Natural R) {p q₁ q₂ : σ × List α} {cs₁ cs₂ : List (List α)}
    (hcs : cs₁.flatten = cs₂.flatten) (h₁ : Fed R p cs₁ q₁) (h₂ : Fed R p cs₂ q₂)
    (hq₁ : Stuck R q₁) (hq₂ : Stuck R q₂) : q₁ = q₂ := by
  have ht₁ := h₁.turns
  have ht₂ := h₂.turns
  rw [hcs] at ht₁
  rcases ReflTransGen.total_of_right_unique hR.rightUnique ht₁ ht₂ with h | h
  · exact hq₁.eq h
  · exact (hq₂.eq h).symm

end Lib.Feed
