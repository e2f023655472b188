import Galileo.Lib.Prog

/-!
# Programs that may use what is gone

A program that frees what it works on must not touch it again. `Watched S` is a state with one more
bit, `wild`, that is set by every access to an object that is gone; `use alive m` is a piece of code
that accesses an object which is there in the states `alive` accepts. A program is written twice,
plainly and with its accesses. `Agrees` says that the second is the first and never goes wild, from
states in which all it is passed is there, and `Tracks` that this is so afterwards, too. These
compose: after a step that tracks, the next one may use everything; after one that only agrees,
nothing may follow.
-/

set_option autoImplicit false

namespace Lib

structure Watched (S : Type) where
  state : S
  wild : Bool

namespace Watched

variable {S α β : Type}

/-- Code that accesses nothing. -/
def free (m : Prog S α) : Prog (Watched S) α :=
  Prog.zoom Watched.state (fun s w => { w with state := s }) m

/-- Code that accesses an object. -/
def use (alive : S → Bool) (m : Prog S α) : Prog (Watched S) α := fun w =>
  free m { w with wild := w.wild || !alive w.state }

/-- `if (m == -1) { cleanup; return (-1); }`. -/
def orFail (m cleanup : Prog S Unit) : Prog S Unit := fun s =>
  match m s with
  | (none, s) => (none, (cleanup s).2)
  | (some _, s) => (some (), s)

/-! ## Agreement -/

/-- From the states `A` accepts, `w` is `m` and does not go wild. -/
def Agrees (A : S → Prop) (w : Prog (Watched S) α) (m : Prog S α) : Prop :=
  ∀ s, A s → w ⟨s, false⟩ = ((m s).1, ⟨(m s).2, false⟩)

/-- And when it returns, `A` still accepts the state. -/
structure Tracks (A : S → Prop) (w : Prog (Watched S) α) (m : Prog S α) : Prop where
  agrees : Agrees A w m
  keeps : ∀ s a, A s → (m s).1 = some a → A (m s).2

section Rules

variable {A : S → Prop} {w : Prog (Watched S) α} {m : Prog S α}
  {wk : α → Prog (Watched S) β} {k : α → Prog S β}

theorem Agrees.pure (a : α) : Agrees A (Pure.pure a) (Pure.pure a) := fun _ _ => rfl

theorem Tracks.pure (a : α) : Tracks A (Pure.pure a) (Pure.pure a) :=
  ⟨.pure a, fun _ _ hs _ => hs⟩

theorem Agrees.free (m : Prog S α) : Agrees A (Watched.free m) m := fun _ _ => rfl

theorem Agrees.use {alive : S → Bool} (halive : ∀ s, A s → alive s = true) (m : Prog S α) :
    Agrees A (Watched.use alive m) m := by
  intro s hs
  rw [Watched.use, halive s hs]
  rfl

/-- **One part after another**: what the first one leaves is what the second one needs. -/
theorem Agrees.seq {B : S → Prop} (hm : Agrees A w m)
    (hleft : ∀ s a, A s → (m s).1 = some a → B (m s).2) (hk : ∀ a, Agrees B (wk a) (k a)) :
    Agrees A (w >>= wk) (m >>= k) := by
  intro s hs
  have hleft := hleft s
  rw [Prog.bind_run, Prog.bind_run, hm s hs]
  rcases hr : m s with ⟨_ | a, s'⟩
  · rfl
  · rw [hr] at hleft
    exact hk a s' (hleft a hs rfl)

theorem Agrees.bind (hm : Tracks A w m) (hk : ∀ a, Agrees A (wk a) (k a)) :
    Agrees A (w >>= wk) (m >>= k) :=
  hm.agrees.seq hm.keeps hk

theorem Tracks.bind (hm : Tracks A w m) (hk : ∀ a, Tracks A (wk a) (k a)) :
    Tracks A (w >>= wk) (m >>= k) := by
  refine ⟨Agrees.bind hm fun a => (hk a).agrees, fun s b hs hb => ?_⟩
  rw [Prog.bind_run] at hb ⊢
  have hkeeps := hm.keeps s
  rcases hr : m s with ⟨_ | a, s'⟩ <;> rw [hr] at hb hkeeps
  · exact nomatch hb
  · exact (hk a).keeps s' b (hkeeps a hs rfl) hb

theorem Agrees.get {alive : S → Bool} (halive : ∀ s, A s → alive s = true)
    {wg : S → Prog (Watched S) β} {g : S → Prog S β} (h : ∀ s, Agrees A (wg s) (g s)) :
    Agrees A (Watched.use alive Prog.get >>= wg) (Prog.get >>= g) :=
  Agrees.bind ⟨Agrees.use halive Prog.get, fun _ _ hs _ => hs⟩ h

theorem Tracks.each {ι : Type} {wb : ι → Prog (Watched S) Unit} {b : ι → Prog S Unit}
    (h : ∀ x, Tracks A (wb x) (b x)) : ∀ l, Tracks A (Prog.each wb l) (Prog.each b l)
  | [] => .pure ()
  | x :: l => (h x).bind fun _ => Tracks.each h l

/-- What is left after a failure has to be enough for the cleanup. -/
theorem Agrees.orFail {B : S → Prop} {w wc : Prog (Watched S) Unit} {m c : Prog S Unit}
    (hm : Agrees A w m) (hfail : ∀ s, A s → (m s).1 = none → B (m s).2) (hc : Agrees B wc c) :
    Agrees A (Watched.orFail w wc) (Watched.orFail m c) := by
  intro s hs
  have hleft := hfail s hs
  rw [Watched.orFail, Watched.orFail, hm s hs]
  rcases hr : m s with ⟨_ | u, s'⟩
  · rw [hr] at hleft
    dsimp only
    rw [hc s' (hleft rfl)]
  · rfl

/-- A cleanup that is never called. -/
theorem Agrees.orFail_of_isSome {w wc : Prog (Watched S) Unit} {m : Prog S Unit}
    (hm : Agrees A w m) (hsome : ∀ s, A s → (m s).1.isSome = true) :
    Agrees A (Watched.orFail w wc) m := by
  intro s hs
  have hsome := hsome s hs
  rw [Watched.orFail, hm s hs]
  rcases hr : m s with ⟨_ | u, s'⟩
  · rw [hr] at hsome
    exact nomatch hsome
  · rfl

/-- What was read is the state. -/
theorem Agrees.get_at {alive : S → Bool} (halive : ∀ s, A s → alive s = true)
    {wg : S → Prog (Watched S) β} {g : S → Prog S β}
    (h : ∀ s, A s → Agrees (fun t => t = s) (wg s) (g s)) :
    Agrees A (Watched.use alive Prog.get >>= wg) (Prog.get >>= g) := by
  intro s hs
  rw [Prog.bind_run, Agrees.use halive Prog.get s hs]
  exact h s hs s rfl

theorem Tracks.and {B : S → Prop} (h : Tracks A w m)
    (hB : ∀ s a, B s → (m s).1 = some a → B (m s).2) : Tracks (fun s => A s ∧ B s) w m :=
  ⟨fun s hs => h.agrees s hs.1, fun s a hs ha => ⟨h.keeps s a hs.1 ha, hB s a hs.2 ha⟩⟩

theorem Agrees.mono {B : S → Prop} (h : Agrees A w m) (hB : ∀ s, B s → A s) : Agrees B w m :=
  fun s hs => h s (hB s hs)

end Rules

end Watched

end Lib
