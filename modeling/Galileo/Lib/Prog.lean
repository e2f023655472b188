import Mathlib.Logic.Basic

/-!
# Programs with a return code

C functions that work on shared state report failure with `-1`, and every caller is expected to
write `if (f(...) == -1) return (-1);`. `Prog S α` is that convention as a monad: a state
transformer whose result is `none` when the call returned `-1`. The state of a failed call is
**kept** — what a function did before it failed is visible to its caller, which is exactly what
the cleanup code of such programs depends on.

`Triple` is the matching program logic: a precondition, a postcondition for the normal return and
one for the failing return. It is a plain definition over one run, so its rules are theorems with
one-line proofs, and a caller reasons about a callee through its triple alone.
-/

set_option autoImplicit false

namespace Lib

/-- `none` is the return code `-1`. -/
def Prog (S α : Type) : Type := S → Option α × S

namespace Prog

variable {S T α β : Type}

instance : Monad (Prog S) where
  pure a := fun s => (some a, s)
  bind m f := fun s =>
    match m s with
    | (some a, s') => f a s'
    | (none, s') => (none, s')

def get : Prog S S := fun s => (some s, s)

def modify (f : S → S) : Prog S Unit := fun s => (some (), f s)

/-- `return (-1)`. -/
def fail : Prog S α := fun s => (none, s)

/-- Run a program on a part of the state. -/
def zoom (view : S → T) (put : T → S → S) (m : Prog T α) : Prog S α := fun s =>
  ((m (view s)).1, put (m (view s)).2 s)

@[simp] theorem pure_run (a : α) (s : S) : (pure a : Prog S α) s = (some a, s) := rfl

theorem bind_run (m : Prog S α) (f : α → Prog S β) (s : S) :
    (m >>= f) s = match m s with
      | (some a, s') => f a s'
      | (none, s') => (none, s') := rfl

@[simp] theorem get_bind (f : S → Prog S β) (s : S) : (get >>= f) s = f s s := rfl

@[simp] theorem modify_bind (g : S → S) (f : Unit → Prog S β) (s : S) :
    (modify g >>= f) s = f () (g s) := rfl

@[simp] theorem modify_run (g : S → S) (s : S) : modify g s = (some (), g s) := rfl

@[simp] theorem fail_run (s : S) : (fail : Prog S α) s = (none, s) := rfl

theorem bind_some {m : Prog S α} {f : α → Prog S β} {s s' : S} {a : α}
    (h : m s = (some a, s')) : (m >>= f) s = f a s' := by rw [bind_run, h]

theorem bind_none {m : Prog S α} {f : α → Prog S β} {s s' : S}
    (h : m s = (none, s')) : (m >>= f) s = (none, s') := by rw [bind_run, h]

instance : LawfulMonad (Prog S) := LawfulMonad.mk' (Prog S)
  (fun m => by
    funext s
    show (m >>= fun a => pure (id a)) s = m s
    rw [bind_run]
    rcases m s with ⟨_ | a, s'⟩ <;> rfl)
  (fun _ _ => rfl)
  (fun m f g => by
    funext s
    show ((m >>= f) >>= g) s = (m >>= fun a => f a >>= g) s
    rw [bind_run, bind_run, bind_run]
    rcases m s with ⟨_ | a, s'⟩ <;> rfl)

/-- Run `body` on the members of a list in turn, stopping at the first failure. -/
def each {ι : Type} (body : ι → Prog S Unit) : List ι → Prog S Unit
  | [] => pure ()
  | x :: l => body x >>= fun _ => each body l

@[simp] theorem each_nil {ι : Type} (body : ι → Prog S Unit) : each body [] = pure () := rfl

@[simp] theorem each_cons {ι : Type} (body : ι → Prog S Unit) (x : ι) (l : List ι) :
    each body (x :: l) = body x >>= fun _ => each body l := rfl

theorem each_append {ι : Type} (body : ι → Prog S Unit) (l₁ l₂ : List ι) :
    each body (l₁ ++ l₂) = each body l₁ >>= fun _ => each body l₂ := by
  induction l₁ with
  | nil => rfl
  | cons x l ih => simp only [List.cons_append, each_cons, ih, bind_assoc]

/-! ## The program logic -/

/-- Started in a state `P` accepts, `m` returns normally in one `Q` accepts or fails in one `E`
accepts. -/
def Triple (P : S → Prop) (m : Prog S α) (Q : α → S → Prop) (E : S → Prop) : Prop :=
  ∀ s, P s → match m s with
    | (some a, s') => Q a s'
    | (none, s') => E s'

variable {P P' : S → Prop} {Q Q' : α → S → Prop} {E E' : S → Prop}

theorem Triple.pure {a : α} (h : ∀ s, P s → Q a s) : Triple P (Pure.pure a) Q E :=
  fun s hs => h s hs

theorem Triple.modify {R : Unit → S → Prop} {g : S → S} (h : ∀ s, P s → R () (g s)) :
    Triple P (Prog.modify g) R E :=
  fun s hs => h s hs

theorem Triple.bind {m : Prog S α} {f : α → Prog S β} {R : β → S → Prop}
    (hm : Triple P m Q E) (hf : ∀ a, Triple (Q a) (f a) R E) : Triple P (m >>= f) R E := by
  intro s hs
  have h := hm s hs
  rw [bind_run]
  rcases hr : m s with ⟨_ | a, s'⟩ <;> rw [hr] at h
  · exact h
  · exact hf a s' h

theorem Triple.get {f : S → Prog S β} {R : β → S → Prop}
    (h : ∀ s₀, Triple (fun s => P s ∧ s = s₀) (f s₀) R E) : Triple P (Prog.get >>= f) R E :=
  fun s hs => h s s ⟨hs, rfl⟩

theorem Triple.mono {m : Prog S α} (h : Triple P m Q E) (hP : ∀ s, P' s → P s)
    (hQ : ∀ a s, Q a s → Q' a s) (hE : ∀ s, E s → E' s) : Triple P' m Q' E' := by
  intro s hs
  have h' := h s (hP s hs)
  rcases hr : m s with ⟨_ | a, s'⟩ <;> rw [hr] at h'
  · exact hE s' h'
  · exact hQ a s' h'

/-- A loop over a list keeps what its body keeps. -/
theorem Triple.each {ι : Type} {body : ι → Prog S Unit} :
    ∀ {l : List ι}, (∀ x ∈ l, Triple P (body x) (fun _ => P) E) →
      Triple P (Prog.each body l) (fun _ => P) E
  | [], _ => Triple.pure fun _ hs => hs
  | x :: l, h =>
    Triple.bind (h x (by simp)) fun _ => Triple.each fun y hy => h y (by simp [hy])

/-! ## Programs that do not see a change -/

/-- What `φ` changes is nothing to `m`: it does the same, and the change is there afterwards. -/
def Commutes (φ : S → S) (m : Prog S α) : Prop := ∀ s, m (φ s) = ((m s).1, φ (m s).2)

section Commutes

variable {φ : S → S}

theorem Commutes.pure (a : α) : Commutes φ (Pure.pure a) := fun _ => rfl

theorem Commutes.modify {g : S → S} (h : ∀ s, g (φ s) = φ (g s)) : Commutes φ (Prog.modify g) :=
  fun s => by rw [modify_run, modify_run, h]

theorem Commutes.bind {m : Prog S α} {f : α → Prog S β} (hm : Commutes φ m)
    (hf : ∀ a, Commutes φ (f a)) : Commutes φ (m >>= f) := by
  intro s
  rw [bind_run, bind_run, hm s]
  rcases m s with ⟨_ | a, s'⟩
  · rfl
  · exact hf a s'

theorem Commutes.get {f : S → Prog S β} (heq : ∀ s, f (φ s) = f s)
    (hf : ∀ s, Commutes φ (f s)) : Commutes φ (Prog.get >>= f) := by
  intro s
  rw [get_bind, get_bind, heq s, hf s s]

theorem Commutes.each {ι : Type} {body : ι → Prog S Unit} (h : ∀ x, Commutes φ (body x)) :
    ∀ l, Commutes φ (Prog.each body l)
  | [] => Commutes.pure ()
  | x :: l => (h x).bind fun _ => Commutes.each h l

theorem Commutes.zoom {ψ : T → T} {view : S → T} {put : T → S → S} {m : Prog T α}
    (hview : ∀ s, view (φ s) = ψ (view s)) (hput : ∀ t s, put (ψ t) (φ s) = φ (put t s))
    (hm : Commutes ψ m) : Commutes φ (Prog.zoom view put m) := by
  intro s
  simp only [Prog.zoom, hview, hm (view s), hput]

end Commutes

end Prog
end Lib
