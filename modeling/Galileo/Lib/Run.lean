import Mathlib.Data.List.Basic

/-!
# Runs of a reactive system

A system that reacts to events is a function `step : S → E → S`, a run is a list of events, and a
safety property of the system is a property of the state after every run. `Steps C` says that
every step of a run — the state before it and the event — meets a condition, which is how a
property that only holds while the environment behaves is stated.

`invariant` is the one induction: what holds at the start and is kept by every step that meets
the condition holds after every run that meets it.
-/

set_option autoImplicit false

namespace Lib.Run

variable {S E : Type} (step : S → E → S) (C : S → E → Prop)
  {es : List E} {s : S} {I : S → Prop} {D : S → E → Prop}

/-- The state after a run. -/
def run (s : S) (es : List E) : S := es.foldl step s

/-- Every step of the run meets `C`. -/
def Steps : S → List E → Prop
  | _, [] => True
  | s, e :: es => C s e ∧ Steps (step s e) es

@[simp] theorem run_nil (s : S) : run step s [] = s := rfl

@[simp] theorem run_cons (s : S) (e : E) (es : List E) :
    run step s (e :: es) = run step (step s e) es := rfl

theorem run_append (s : S) (es es' : List E) :
    run step s (es ++ es') = run step (run step s es) es' := List.foldl_append

variable {step C}

/-- **The induction over runs.** -/
theorem invariant (hstep : ∀ s e, I s → C s e → I (step s e)) (hs : I s) (hc : Steps step C s es) :
    I (run step s es) := by
  induction es generalizing s with
  | nil => exact hs
  | cons e es ih => exact ih (hstep s e hs hc.1) hc.2

theorem Steps.append {es es' : List E} :
    Steps step C s (es ++ es') ↔ Steps step C s es ∧ Steps step C (run step s es) es' := by
  induction es generalizing s with
  | nil => simp [Steps]
  | cons e es ih => simp only [List.cons_append, Steps, ih, run_cons, and_assoc]

theorem Steps.mono (h : ∀ s e, C s e → D s e) (hs : Steps step C s es) : Steps step D s es := by
  induction es generalizing s with
  | nil => trivial
  | cons e es ih => exact ⟨h s e hs.1, ih hs.2⟩

theorem Steps.of_forall (h : ∀ s e, C s e) (s : S) (es : List E) : Steps step C s es := by
  induction es generalizing s with
  | nil => trivial
  | cons e es ih => exact ⟨h s e, ih _⟩

theorem Steps.of_mem (h : ∀ e ∈ es, ∀ s, C s e) (s : S) : Steps step C s es := by
  induction es generalizing s with
  | nil => trivial
  | cons e es ih =>
    exact ⟨h e List.mem_cons_self s, ih (fun e' he' => h e' (List.mem_cons_of_mem e he')) _⟩

/-- What every step that meets `C` does from a state in which an invariant of such steps holds, all
steps of a run that meets `C` do. -/
theorem Steps.of_invariant (hstep : ∀ s e, I s → C s e → I (step s e))
    (h : ∀ s e, I s → C s e → D s e) (hs : I s) (hc : Steps step C s es) : Steps step D s es := by
  induction es generalizing s with
  | nil => trivial
  | cons e es ih => exact ⟨h s e hs hc.1, ih (hstep s e hs hc.1) hc.2⟩

/-- Two conditions that agree wherever an invariant holds are met by the same runs. -/
theorem Steps.congr (hstep : ∀ s e, I s → I (step s e)) (h : ∀ s e, I s → (C s e ↔ D s e))
    (hs : I s) (es : List E) :
    Steps step C s es ↔ Steps step D s es := by
  induction es generalizing s with
  | nil => rfl
  | cons e es ih => exact and_congr (h s e hs) (ih (hstep s e hs))

/-- A run that does not meet the condition has a first part that leads to a step that does not. -/
theorem exists_of_not_steps (h : ¬ Steps step C s es) :
    ∃ es₁ e es₂, es = es₁ ++ e :: es₂ ∧ ¬ C (run step s es₁) e := by
  induction es generalizing s with
  | nil => exact absurd trivial h
  | cons e es ih =>
    by_cases hc : C s e
    · obtain ⟨es₁, e', es₂, rfl, he⟩ := ih fun hs => h ⟨hc, hs⟩
      exact ⟨e :: es₁, e', es₂, rfl, he⟩
    · exact ⟨[], e, es, rfl, hc⟩

instance Steps.decidable [∀ s e, Decidable (C s e)] :
    ∀ (s : S) (es : List E), Decidable (Steps step C s es)
  | _, [] => inferInstanceAs (Decidable True)
  | s, e :: es =>
    have := Steps.decidable (step s e) es
    inferInstanceAs (Decidable (C s e ∧ Steps step C (step s e) es))

/-! ## Refinement -/

section Refinement

variable {A L : Type} {act : A → L → A} {G : A → L → Prop} {abs : S → A}

/-- **Refinement of runs.** When every step that meets `C` is a run of abstract actions that meet
`G`, every run of such steps is. `I` is an invariant the argument for a step may use. -/
theorem refines
    (hstep : ∀ s e, I s → C s e →
      I (step s e) ∧ ∃ as, Steps act G (abs s) as ∧ run act (abs s) as = abs (step s e))
    (hs : I s) (hc : Steps step C s es) :
    I (run step s es) ∧
      ∃ as, Steps act G (abs s) as ∧ run act (abs s) as = abs (run step s es) := by
  induction es generalizing s with
  | nil => exact ⟨hs, [], trivial, rfl⟩
  | cons e es ih =>
    obtain ⟨hI, as, has, hrun⟩ := hstep s e hs hc.1
    obtain ⟨hI', as', has', hrun'⟩ := ih hI hc.2
    refine ⟨hI', as ++ as', Steps.append.mpr ⟨has, ?_⟩, ?_⟩
    · rw [hrun]
      exact has'
    · rw [run_append, hrun, hrun', run_cons]

/-- **Simulation of runs.** When every step that meets `C` is a run of abstract actions between
related states, with the same observations, every run of such steps is. -/
theorem simulates {V : Type} {R : S → A → Prop} {obs : E → List V} {obs' : L → List V}
    (hstep : ∀ s e a, R s a → C s e → ∃ as, R (step s e) (run act a as) ∧ as.flatMap obs' = obs e)
    {a : A} (h : R s a) (hc : Steps step C s es) :
    ∃ as, R (run step s es) (run act a as) ∧ as.flatMap obs' = es.flatMap obs := by
  induction es generalizing s a with
  | nil => exact ⟨[], h, rfl⟩
  | cons e es ih =>
    obtain ⟨as, hR, hobs⟩ := hstep s e a h hc.1
    obtain ⟨as', hR', hobs'⟩ := ih hR hc.2
    refine ⟨as ++ as', ?_, ?_⟩
    · rw [run_append]
      exact hR'
    · rw [List.flatMap_append, List.flatMap_cons, hobs, hobs']

end Refinement

/-! ## Logs

A log only grows, and what is said about it is said about each of its entries together with what
stands before and behind it. -/

section Logs

variable {α : Type}

/-- `P before entry behind`, for every entry. -/
def Everywhere (P : List α → α → List α → Prop) (log : List α) : Prop :=
  ∀ l₁ o l₂, log = l₁ ++ o :: l₂ → P l₁ o l₂

variable {P : List α → α → List α → Prop}

theorem Everywhere.nil : Everywhere P ([] : List α) := fun l₁ o l₂ h => by simp at h

/-- Entries that are already there keep a property that more entries behind cannot spoil. -/
theorem Everywhere.append (hmono : ∀ l₁ o l₂ l₃, P l₁ o l₂ → P l₁ o (l₂ ++ l₃))
    {log new : List α} (hlog : Everywhere P log)
    (hnew : Everywhere (fun n₁ o n₂ => P (log ++ n₁) o n₂) new) : Everywhere P (log ++ new) := by
  intro l₁ o l₂ h
  rcases List.append_eq_append_iff.mp h with ⟨n, rfl, hn⟩ | ⟨n, rfl, hn⟩
  · exact hnew n o l₂ hn
  · cases n with
    | nil =>
      simp only [List.nil_append] at hn
      simpa using hnew [] o l₂ hn.symm
    | cons b n =>
      simp only [List.cons_append, List.cons.injEq] at hn
      obtain ⟨rfl, rfl⟩ := hn
      exact hmono _ _ _ _ (hlog l₁ o n rfl)

theorem everywhere_singleton {o : α} : Everywhere P [o] ↔ P [] o [] := by
  constructor
  · exact fun h => h [] o [] rfl
  · intro h l₁ o' l₂ he
    rcases l₁ with _ | ⟨b, l₁⟩ <;> simp at he
    obtain ⟨rfl, rfl⟩ := he
    exact h

theorem everywhere_pair {o o' : α} : Everywhere P [o, o'] ↔ P [] o [o'] ∧ P [o] o' [] := by
  constructor
  · exact fun h => ⟨h [] o [o'] rfl, h [o] o' [] rfl⟩
  · rintro ⟨h, h'⟩ l₁ p l₂ he
    rcases l₁ with _ | ⟨b, _ | ⟨c, l₁⟩⟩ <;> simp at he
    · obtain ⟨rfl, rfl⟩ := he
      exact h
    · obtain ⟨rfl, rfl, rfl⟩ := he
      exact h'

end Logs

end Lib.Run
