import Mathlib.Data.List.Basic
import Galileo.Lib.Bytes

/-!
# Runs of blanks

A reader that compresses blanks gives one space for each run of spaces and tabs. `squeeze run s` is
what it gives for `s`, where `run` says that a blank was the last thing it read: then the blanks `s`
begins with belong to a run that has had its space already. A line of which the blanks in front are
dropped altogether is `squeeze true`.
-/

set_option autoImplicit false

namespace Lib

def squeeze : Bool → Bytes → Bytes
  | _, [] => []
  | run, b :: s =>
      if isblank b then if run then squeeze true s else 32 :: squeeze true s
      else b :: squeeze false s

theorem squeeze_blank {b : UInt8} (h : isblank b = true) (s : Bytes) :
    squeeze false (b :: s) = 32 :: squeeze true s := by
  simp [squeeze, h]

theorem squeeze_run {b : UInt8} (h : isblank b = true) (s : Bytes) :
    squeeze true (b :: s) = squeeze true s := by
  simp [squeeze, h]

theorem squeeze_cons {b : UInt8} (h : isblank b = false) (run : Bool) (s : Bytes) :
    squeeze run (b :: s) = b :: squeeze false s := by
  simp [squeeze, h]

/-- In a run, what is left of the run is dropped. -/
theorem squeeze_true (s : Bytes) : squeeze true s = squeeze false (s.dropWhile isblank) := by
  induction s with
  | nil => rfl
  | cons b s ih =>
    cases h : isblank b with
    | true => rw [squeeze_run h, List.dropWhile_cons_of_pos h, ih]
    | false => rw [List.dropWhile_cons_of_neg (by simp [h]), squeeze_cons h, squeeze_cons h]

/-- A run ends where something else begins. -/
theorem dropWhile_append_of_head {p : UInt8 → Bool} {r : Bytes} {c : UInt8} (hr : r.head? = some c)
    (hc : p c = false) (w : Bytes) : (w ++ r).dropWhile p = w.dropWhile p ++ r := by
  cases r with
  | nil => cases hr
  | cons a r =>
    cases hr
    induction w with
    | nil => simp [hc]
    | cons b w ih =>
      cases hb : p b with
      | true => simpa [hb] using ih
      | false => simp [hb]

theorem dropWhile_dropWhile_of_imp {p q : UInt8 → Bool} (h : ∀ b, p b = true → q b = true)
    (s : Bytes) : (s.dropWhile p).dropWhile q = s.dropWhile q := by
  induction s with
  | nil => rfl
  | cons b s ih =>
    cases hb : p b with
    | true => rw [List.dropWhile_cons_of_pos hb, List.dropWhile_cons_of_pos (h b hb), ih]
    | false => rw [List.dropWhile_cons_of_neg (by simp [hb])]

theorem mem_squeeze {c : UInt8} {run : Bool} {s : Bytes} (h : c ∈ squeeze run s) :
    c = 32 ∨ c ∈ s := by
  induction s generalizing run with
  | nil => cases h
  | cons b s ih =>
    have hrest : ∀ {run : Bool}, c ∈ squeeze run s → c = 32 ∨ c ∈ b :: s := fun hc =>
      (ih hc).imp_right (List.mem_cons_of_mem b)
    simp only [squeeze] at h
    split at h
    · split at h
      · exact hrest h
      · rcases List.mem_cons.mp h with rfl | h
        · exact Or.inl rfl
        · exact hrest h
    · rcases List.mem_cons.mp h with rfl | h
      · exact Or.inr List.mem_cons_self
      · exact hrest h

/-- Being in a run can only drop more. -/
theorem length_squeeze_true_le (s : Bytes) :
    (squeeze true s).length ≤ (squeeze false s).length := by
  cases s with
  | nil => exact Nat.le_refl _
  | cons b s =>
    cases h : isblank b with
    | true => simp [squeeze, h]
    | false => rw [squeeze_cons h, squeeze_cons h]

/-- A character that is no blank stays at the end. -/
theorem getLast?_squeeze {c : UInt8} (hc : isblank c = false) {run : Bool} {s : Bytes}
    (h : (squeeze run s).getLast? = some c) : s.getLast? = some c := by
  induction s generalizing run with
  | nil => exact h
  | cons b s ih =>
    rw [List.getLast?_cons]
    cases hb : isblank b with
    | true =>
      cases run with
      | true =>
        rw [squeeze_run hb] at h
        rw [ih h]
        rfl
      | false =>
        rw [squeeze_blank hb, List.getLast?_cons] at h
        cases hs : (squeeze true s).getLast? with
        | none =>
          rw [hs] at h
          cases h
          cases hc
        | some d =>
          rw [hs] at h
          cases h
          rw [ih hs]
          rfl
    | false =>
      rw [squeeze_cons hb, List.getLast?_cons] at h
      cases hs : (squeeze false s).getLast? with
      | some d =>
        rw [hs] at h
        cases h
        rw [ih hs]
        rfl
      | none =>
        rw [hs] at h
        cases h
        have hnil : s = [] := by
          cases s with
          | nil => rfl
          | cons a s =>
            cases ha : isblank a with
            | true => simp [squeeze_blank ha] at hs
            | false => simp [squeeze_cons ha] at hs
        rw [hnil]
        rfl

end Lib
