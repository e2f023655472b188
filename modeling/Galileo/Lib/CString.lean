import Galileo.Lib.Bytes

/-!
# C strings, byte by byte

A C string is an array that ends with its terminator, and code walks along it with an index. Here a
read outside of the array fails, so that a function written with these reads has a value exactly
when it stays inside. Each reader has one equation that says what it finds and that it does not
fail, from any index up to the terminator: comparisons and loops stop at it by themselves.
-/

set_option autoImplicit false

namespace Lib.CString

open Lib

/-- The byte at an index; the last one is the terminator. -/
def charAt (s : Bytes) (i : Nat) : Option UInt8 := (s ++ [0])[i]?

/-- `!strncmp(s + i, t, strlen(t))`: to the first byte that differs. -/
def startsAt (s : Bytes) : Nat → Bytes → Option Bool
  | _, [] => some true
  | i, b :: t => do
      let a ← charAt s i
      if a = b then startsAt s (i + 1) t else some false

/-- `while (p(s[i])) i++`, for at most that many rounds. -/
def skipAt (p : UInt8 → Bool) (s : Bytes) : Nat → Nat → Option Nat
  | 0, _ => none
  | n + 1, i => do
      let a ← charAt s i
      if p a then skipAt p s n (i + 1) else some i

/-- What a function finds that reads on from an index to the terminator. -/
def readAt (s : Bytes) (i : Nat) : Option Bytes := if i ≤ s.length then some (s.drop i) else none

section Reads

variable {s : Bytes} {i : Nat}

theorem charAt_eq (hi : i ≤ s.length) : charAt s i = some ((s.drop i).headD 0) := by
  rw [charAt]
  rcases Nat.lt_or_eq_of_le hi with hlt | rfl
  · rw [List.getElem?_append_left hlt, List.getElem?_eq_getElem hlt,
      List.drop_eq_getElem_cons hlt]
    rfl
  · rw [List.getElem?_append_right (Nat.le_refl _), Nat.sub_self, List.drop_length]
    rfl

theorem startsAt_eq (hi : i ≤ s.length) {t : Bytes} (ht : 0 ∉ t) :
    startsAt s i t = some (t.isPrefixOf (s.drop i)) := by
  induction t generalizing i with
  | nil =>
    rw [startsAt]
    cases s.drop i <;> rfl
  | cons b t ih =>
    rw [List.mem_cons, not_or] at ht
    rw [startsAt, charAt_eq hi]
    show (if (s.drop i).headD 0 = b then startsAt s (i + 1) t else some false) = _
    rcases Nat.lt_or_eq_of_le hi with hlt | rfl
    · rw [List.drop_eq_getElem_cons hlt, List.headD_cons, ih hlt ht.2]
      by_cases hb : s[i] = b
      · rw [if_pos hb, List.isPrefixOf, hb, beq_self_eq_true, Bool.true_and]
      · rw [if_neg hb, List.isPrefixOf, beq_eq_false_iff_ne.mpr (Ne.symm hb), Bool.false_and]
    · -- the terminator is no byte of `t`
      rw [List.drop_length, List.headD_nil, if_neg ht.1]
      rfl

theorem skipAt_eq (p : UInt8 → Bool) (hp : p 0 = false) (hi : i ≤ s.length) {n : Nat}
    (hn : s.length < n + i) :
    skipAt p s n i = some (i + ((s.drop i).takeWhile p).length) := by
  induction n generalizing i with
  | zero => omega
  | succ n ih =>
    rw [skipAt, charAt_eq hi]
    show (if p ((s.drop i).headD 0) then skipAt p s n (i + 1) else some i) = _
    rcases Nat.lt_or_eq_of_le hi with hlt | rfl
    · rw [List.drop_eq_getElem_cons hlt, List.headD_cons, List.takeWhile_cons]
      split
      · rw [ih hlt (by omega), List.length_cons]
        show some (i + 1 + _) = some (i + (_ + 1))
        rw [Nat.add_assoc, Nat.add_comm 1]
      · rfl
    · rw [List.drop_length, List.headD_nil, hp, if_neg Bool.false_ne_true]
      rfl

/-- What stands behind a run. -/
theorem drop_length_takeWhile (p : UInt8 → Bool) (s : Bytes) :
    s.drop (s.takeWhile p).length = s.dropWhile p := by
  induction s with
  | nil => rfl
  | cons b s ih =>
    rw [List.takeWhile_cons, List.dropWhile_cons]
    split
    · exact ih
    · rfl

theorem readAt_eq (hi : i ≤ s.length) : readAt s i = some (s.drop i) := if_pos hi

theorem readAt_none (hi : s.length < i) : readAt s i = none := if_neg (Nat.not_le.mpr hi)

end Reads

/-! ## Strings that are written to -/

/-- The string at an index of a block of memory, which has to end in it. -/
def strAt (m : Bytes) (i : Nat) : Option Bytes :=
  if 0 ∈ m.drop i then some (cstr (m.drop i)) else none

/-- `m[i] = b`. -/
def poke (m : Bytes) (i : Nat) (b : UInt8) : Option Bytes :=
  if i < m.length then some (m.set i b) else none

theorem cstr_append_zero {s : Bytes} (h : 0 ∉ s) (r : Bytes) : cstr (s ++ 0 :: r) = s := by
  have hall : ∀ b ∈ s, (b != 0) = true := by
    intro b hb
    exact bne_iff_ne.mpr fun he => h (he ▸ hb)
  rw [cstr, List.takeWhile_append_of_pos hall]
  exact List.append_nil s

/-- A string ends at its first NUL, wherever it is read from. -/
theorem strAt_append_zero {s : Bytes} (h : 0 ∉ s) (r : Bytes) {i : Nat} (hi : i ≤ s.length) :
    strAt (s ++ 0 :: r) i = some (s.drop i) := by
  rw [strAt, List.drop_append_of_le_length hi, if_pos (by simp),
    cstr_append_zero fun hmem => h (List.mem_of_mem_drop hmem)]

theorem poke_append (s : Bytes) (b b' : UInt8) (r : Bytes) :
    poke (s ++ b :: r) s.length b' = some (s ++ b' :: r) := by
  rw [poke, if_pos (by rw [List.length_append, List.length_cons]; omega),
    List.set_append_right _ _ (Nat.le_refl _), Nat.sub_self, List.set_cons_zero]

/-! ## Searching -/

/-- `strstr` finds the first occurrence. -/
theorem strstr_eq_some {n s t : Bytes} (h : strstr n s = some t) :
    ∃ a, s = a ++ t ∧ n <+: t ∧ ∀ a' b', s = a' ++ n ++ b' → a.length ≤ a'.length := by
  induction s with
  | nil =>
    rw [strstr] at h
    split_ifs at h with hempty
    cases h
    rw [List.isEmpty_iff.mp hempty]
    exact ⟨[], rfl, List.prefix_refl _, fun _ _ _ => Nat.zero_le _⟩
  | cons b s ih =>
    rw [strstr] at h
    split_ifs at h with hpre
    · cases h
      exact ⟨[], rfl, List.isPrefixOf_iff_prefix.mp hpre, fun _ _ _ => Nat.zero_le _⟩
    · obtain ⟨a, rfl, hnt, hfirst⟩ := ih h
      refine ⟨b :: a, rfl, hnt, fun a' b' hsplit => ?_⟩
      cases a' with
      | nil =>
        refine absurd (List.isPrefixOf_iff_prefix.mpr ⟨b', ?_⟩) hpre
        exact hsplit.symm
      | cons c a' =>
        have htail := (List.cons.inj hsplit).2
        exact Nat.succ_le_succ (hfirst a' b' htail)

theorem strstr_eq_none {n s : Bytes} (h : strstr n s = none) (a b : Bytes) : s ≠ a ++ n ++ b := by
  induction s generalizing a with
  | nil =>
    rw [strstr] at h
    split_ifs at h with hempty
    intro hsplit
    refine hempty (List.isEmpty_iff.mpr ?_)
    have hnil := List.append_eq_nil_iff.mp hsplit.symm
    exact (List.append_eq_nil_iff.mp hnil.1).2
  | cons c s ih =>
    rw [strstr] at h
    split_ifs at h with hpre
    intro hsplit
    cases a with
    | nil => exact hpre (List.isPrefixOf_iff_prefix.mpr ⟨b, hsplit.symm⟩)
    | cons c' a => exact ih h a (List.cons.inj hsplit).2

theorem strchr_eq_some {c : UInt8} {s t : Bytes} (h : strchr c s = some t) :
    ∃ a r, s = a ++ c :: r ∧ t = c :: r ∧ c ∉ a := by
  induction s with
  | nil => cases h
  | cons b s ih =>
    rw [strchr] at h
    by_cases hb : b = c
    · rw [if_pos (beq_iff_eq.mpr hb)] at h
      cases h
      exact ⟨[], s, by rw [hb]; rfl, by rw [hb], List.not_mem_nil⟩
    · rw [if_neg (by simpa using hb)] at h
      obtain ⟨a, r, rfl, rfl, ha⟩ := ih h
      refine ⟨b :: a, r, rfl, rfl, ?_⟩
      rw [List.mem_cons, not_or]
      exact ⟨fun he => hb he.symm, ha⟩

theorem not_mem_of_strchr {c : UInt8} {s : Bytes} (h : strchr c s = none) : c ∉ s := by
  induction s with
  | nil => exact List.not_mem_nil
  | cons b s ih =>
    rw [strchr] at h
    split_ifs at h with hb
    rw [List.mem_cons, not_or]
    exact ⟨fun he => hb (by simp [he]), ih h⟩

end Lib.CString
