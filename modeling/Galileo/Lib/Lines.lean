import Mathlib.Data.List.Basic
import Galileo.Lib.Bytes

/-!
# Lines of a stream

A reader that takes lines off an event buffer as they become complete sees the same lines however
the stream arrives: `splitLines` cuts a stream into its complete lines and the rest, and
`splitLines_append` is all there is to say about a second arrival. `starts` are the contents of the
buffer when each of the lines is taken; they are different from each other, so a function of the
buffer can have any values on them (`exists_on_starts`).
-/

set_option autoImplicit false

namespace Lib

/-- The complete lines of a stream, without their LF, and what is behind the last LF. -/
def splitLines : Bytes → List Bytes × Bytes
  | [] => ([], [])
  | b :: s =>
      if b == 10 then ([] :: (splitLines s).1, (splitLines s).2)
      else match splitLines s with
        | ([], rest) => ([], b :: rest)
        | (l :: ls, rest) => ((b :: l) :: ls, rest)

theorem splitLines_of_splitLf_none {s : Bytes} (h : splitLf s = none) : splitLines s = ([], s) := by
  induction s with
  | nil => rfl
  | cons b s ih =>
    by_cases hb : (b == 10) = true
    · simp [splitLf, hb] at h
    · simp only [splitLf, hb, if_false, Bool.false_eq_true, Option.map_eq_none_iff] at h
      simp only [splitLines, hb, if_false, Bool.false_eq_true, ih h]

theorem splitLines_of_splitLf_some {s l rest : Bytes} (h : splitLf s = some (l, rest)) :
    splitLines s = (l :: (splitLines rest).1, (splitLines rest).2) := by
  induction s generalizing l with
  | nil => cases h
  | cons b s ih =>
    by_cases hb : (b == 10) = true
    · simp only [splitLf, hb, if_true, Option.some.injEq, Prod.mk.injEq] at h
      obtain ⟨rfl, rfl⟩ := h
      simp only [splitLines, hb, if_true]
    · simp only [splitLf, hb, if_false, Bool.false_eq_true, Option.map_eq_some_iff] at h
      obtain ⟨p, hp, hpl⟩ := h
      obtain ⟨rfl, rfl⟩ := Prod.mk.inj hpl
      simp only [splitLines, hb, if_false, Bool.false_eq_true, ih hp]

theorem splitLines_cons {l : Bytes} (h : 10 ∉ l) (s : Bytes) :
    splitLines (l ++ 10 :: s) = (l :: (splitLines s).1, (splitLines s).2) := by
  induction l with
  | nil => rfl
  | cons b l ih =>
    rw [List.mem_cons, not_or] at h
    rw [List.cons_append, splitLines, if_neg (by simpa using Ne.symm h.1), ih h.2]

/-- **A second arrival** finishes the line that was left over. -/
theorem splitLines_append (s t : Bytes) :
    splitLines (s ++ t) = ((splitLines s).1 ++ (splitLines ((splitLines s).2 ++ t)).1,
      (splitLines ((splitLines s).2 ++ t)).2) := by
  induction s with
  | nil => simp [splitLines]
  | cons b s ih =>
    by_cases hb : (b == 10) = true
    · simp only [List.cons_append, splitLines, hb, if_true, ih]
    · rw [List.cons_append, splitLines, splitLines, ih]
      simp only [hb, if_false, Bool.false_eq_true]
      rcases splitLines s with ⟨_ | ⟨l, ls⟩, rest⟩
      · simp only [List.nil_append, List.cons_append, splitLines, hb, if_false,
          Bool.false_eq_true]
      · rfl

/-- The rest has no complete line. -/
theorem splitLines_rest (b : Bytes) : (splitLines (splitLines b).2).1 = [] := by
  have h := splitLines_append b []
  simp only [List.append_nil] at h
  simpa using congrArg Prod.fst h

/-- The stream the lines and the rest were cut out of. -/
def joinLines (ls : List Bytes) (rest : Bytes) : Bytes := ls.flatMap (· ++ [10]) ++ rest

theorem joinLines_cons (l : Bytes) (ls : List Bytes) (rest : Bytes) :
    joinLines (l :: ls) rest = l ++ 10 :: joinLines ls rest := by
  simp [joinLines]

theorem joinLines_splitLines (s : Bytes) : joinLines (splitLines s).1 (splitLines s).2 = s := by
  induction s with
  | nil => rfl
  | cons b s ih =>
    by_cases hb : (b == 10) = true
    · simp only [splitLines, hb, if_true, joinLines_cons, ih]
      rw [show b = 10 from by simpa using hb, List.nil_append]
    · simp only [splitLines, hb, if_false, Bool.false_eq_true]
      rcases hsplit : splitLines s with ⟨_ | ⟨l, ls⟩, rest⟩
      · rw [hsplit] at ih
        simpa [joinLines] using ih
      · rw [hsplit, joinLines_cons] at ih
        rw [joinLines_cons, ← ih]
        rfl

/-- The lines have no newline in them, and neither has the rest. -/
theorem newline_not_mem_splitLines (s : Bytes) :
    (∀ w ∈ (splitLines s).1, 10 ∉ w) ∧ 10 ∉ (splitLines s).2 := by
  induction s with
  | nil => simp [splitLines]
  | cons b s ih =>
    obtain ⟨hlines, hrest⟩ := ih
    rw [splitLines]
    split
    · refine ⟨fun w hw => ?_, hrest⟩
      rcases List.mem_cons.mp hw with rfl | hw
      · simp
      · exact hlines w hw
    · next hb =>
      have hb10 : 10 ≠ b := fun h => hb (by simp [← h])
      split
      · next rest heq =>
        rw [heq] at hrest
        exact ⟨by simp, by simp [hb10, hrest]⟩
      · next l ls rest heq =>
        rw [heq] at hlines hrest
        refine ⟨fun w hw => ?_, hrest⟩
        rcases List.mem_cons.mp hw with rfl | hw
        · simp [hb10, hlines l List.mem_cons_self]
        · exact hlines w (List.mem_cons_of_mem _ hw)

theorem mem_joinLines {w : Bytes} {ls : List Bytes} (hw : w ∈ ls) (rest : Bytes) :
    ∃ a b, joinLines ls rest = a ++ (w ++ 10 :: b) := by
  obtain ⟨as, bs, rfl⟩ := List.append_of_mem hw
  exact ⟨as.flatMap (· ++ [10]), joinLines bs rest, by simp [joinLines]⟩

/-- Nothing is behind the last LF of a stream that ends with one. -/
theorem splitLines_snd_eq_nil_iff (s : Bytes) :
    (splitLines s).2 = [] ↔ s = [] ∨ s.getLast? = some 10 := by
  induction s with
  | nil => simp [splitLines]
  | cons b s ih =>
    rcases s with _ | ⟨b', s⟩
    · by_cases hb : b = 10 <;> simp [splitLines, hb]
    · have hlast : (b :: b' :: s).getLast? = (b' :: s).getLast? := by simp
      have htail : (splitLines (b :: b' :: s)).2 = [] ↔ (splitLines (b' :: s)).2 = [] := by
        by_cases hb : (b == 10) = true
        · rw [splitLines, if_pos hb]
        · rw [splitLines, if_neg hb]
          have hne : (splitLines (b' :: s)).1 = [] → (splitLines (b' :: s)).2 ≠ [] := fun h h' => by
            have hjoin := joinLines_splitLines (b' :: s)
            rw [h, h'] at hjoin
            cases hjoin
          rcases hsplit : splitLines (b' :: s) with ⟨_ | ⟨l, ls⟩, rest⟩
          · rw [hsplit] at hne
            simpa using hne rfl
          · rfl
      rw [htail, ih, hlast]
      simp

/-- What the buffer holds when each of the lines is taken. -/
def starts : List Bytes → Bytes → List Bytes
  | [], _ => []
  | l :: ls, rest => joinLines (l :: ls) rest :: starts ls rest

theorem length_le_of_mem_starts {ls : List Bytes} {rest b : Bytes} (h : b ∈ starts ls rest) :
    b.length ≤ (joinLines ls rest).length := by
  induction ls with
  | nil => cases h
  | cons l ls ih =>
    rcases List.mem_cons.mp h with rfl | h
    · exact Nat.le_refl _
    · have := ih h
      rw [joinLines_cons, List.length_append, List.length_cons]
      omega

@[simp] theorem length_starts (ls : List Bytes) (rest : Bytes) :
    (starts ls rest).length = ls.length := by
  induction ls with
  | nil => rfl
  | cons l ls ih => rw [starts, List.length_cons, List.length_cons, ih]

/-- **A function of the buffer can have any values** at the starts of the lines, and one more on a
longer buffer. -/
theorem exists_on_starts {α : Type} (ls : List Bytes) (rest : Bytes) {vs : List α}
    (h : vs.length = ls.length) (buf : Bytes) (v : α)
    (hbuf : (joinLines ls rest).length < buf.length) :
    ∃ g : Bytes → α, g buf = v ∧ (starts ls rest).map g = vs := by
  induction ls generalizing vs with
  | nil =>
    rw [List.length_nil, List.length_eq_zero_iff] at h
    exact ⟨fun _ => v, rfl, h.symm⟩
  | cons l ls ih =>
    obtain _ | ⟨w, vs⟩ := vs
    · cases h
    · have hlonger : (joinLines ls rest).length < (joinLines (l :: ls) rest).length := by
        rw [joinLines_cons, List.length_append, List.length_cons]
        omega
      obtain ⟨g, hg, hmap⟩ := ih (by simpa using h) (hlonger.trans hbuf)
      refine ⟨fun b => if b = joinLines (l :: ls) rest then w else g b, ?_, ?_⟩
      · dsimp only
        rw [if_neg, hg]
        rintro rfl
        exact Nat.lt_irrefl _ hbuf
      · rw [starts, List.map_cons, if_pos rfl, ← hmap]
        refine congrArg (w :: ·) (List.map_congr_left fun b hb => if_neg fun he => ?_)
        have := length_le_of_mem_starts hb
        rw [he] at this
        omega

/-! ## Lines that end in CR LF -/

section Strict

variable {s t l rest : Bytes}

theorem readlnCrlfStrict_eq_append (h : readlnCrlfStrict s = some (l, rest)) :
    s = l ++ 13 :: 10 :: rest := by
  induction s generalizing l with
  | nil => cases h
  | cons b s ih =>
    rw [readlnCrlfStrict] at h
    split at h
    · rename_i hb
      obtain ⟨rfl, hs⟩ : b = 13 ∧ s.head? = some 10 := by simpa using hb
      obtain ⟨rfl, rfl⟩ := Prod.mk.inj (Option.some.inj h)
      obtain ⟨s', rfl⟩ := List.head?_eq_some_iff.mp hs
      rfl
    · obtain ⟨p, hp, hpl⟩ := Option.map_eq_some_iff.mp h
      obtain ⟨rfl, rfl⟩ := Prod.mk.inj hpl
      rw [ih hp]
      rfl

theorem readlnCrlfStrict_append {p : Bytes × Bytes} (h : readlnCrlfStrict s = some p) (t : Bytes) :
    readlnCrlfStrict (s ++ t) = some (p.1, p.2 ++ t) := by
  obtain ⟨l, rest⟩ := p
  induction s generalizing l with
  | nil => cases h
  | cons b s ih =>
    rw [readlnCrlfStrict] at h
    rw [List.cons_append, readlnCrlfStrict]
    split at h
    · rename_i hb
      obtain ⟨-, hs⟩ : b = 13 ∧ s.head? = some 10 := by simpa using hb
      obtain ⟨rfl, rfl⟩ := Prod.mk.inj (Option.some.inj h)
      obtain ⟨s', rfl⟩ := List.head?_eq_some_iff.mp hs
      rw [if_pos (by simpa using hb)]
      rfl
    · rename_i hb
      obtain ⟨p, hp, hpl⟩ := Option.map_eq_some_iff.mp h
      obtain ⟨rfl, rfl⟩ := Prod.mk.inj hpl
      have hs : s ≠ [] := by
        rintro rfl
        cases hp
      rw [List.head?_append_of_ne_nil _ hs, if_neg hb, ih _ hp]
      rfl

/-- A part of the stream without the whole of the line and its end has no line. -/
theorem readlnCrlfStrict_none_iff (h : readlnCrlfStrict (s ++ t) = some (l, rest)) :
    readlnCrlfStrict s = none ↔ s.length ≤ l.length + 1 := by
  constructor
  · intro hnone
    induction s generalizing l with
    | nil => exact Nat.zero_le _
    | cons b s ih =>
      rw [List.cons_append, readlnCrlfStrict] at h
      rw [readlnCrlfStrict] at hnone
      split at hnone
      · cases hnone
      · rename_i hb
        split at h
        · -- only the CR of the line's end is there
          rcases s with _ | ⟨b', s⟩
          · simp
          · exact absurd ‹_› hb
        · obtain ⟨p, hp, hpl⟩ := Option.map_eq_some_iff.mp h
          obtain ⟨rfl, rfl⟩ := Prod.mk.inj hpl
          have := ih hp (Option.map_eq_none_iff.mp hnone)
          simp only [List.length_cons]
          omega
  · intro hle
    cases hs : readlnCrlfStrict s with
    | none => rfl
    | some p =>
      have happ := readlnCrlfStrict_append hs t
      rw [h] at happ
      obtain ⟨rfl, -⟩ := Prod.mk.inj (Option.some.inj happ)
      have := congrArg List.length (readlnCrlfStrict_eq_append hs)
      simp at this
      omega

end Strict

/-- A part without a certain element is on one side of it. -/
theorem infix_of_not_mem {α : Type} {s a b : List α} {x : α} (h : s <:+: a ++ x :: b) (hx : x ∉ s) :
    s <:+: a ∨ s <:+: b := by
  obtain ⟨p, q, h⟩ := h
  rcases List.append_eq_append_iff.mp h with ⟨r, rfl, -⟩ | ⟨r, hps, hr⟩
  · exact .inl ⟨p, r, rfl⟩
  rcases List.append_eq_append_iff.mp hps with ⟨d, rfl, rfl⟩ | ⟨d, rfl, rfl⟩
  · rcases r with _ | ⟨y, r⟩
    · exact .inl ⟨p, [], by simp⟩
    · cases hr
      simp at hx
  · rcases d with _ | ⟨y, d⟩
    · rcases s with _ | ⟨y, s⟩
      · exact .inl ⟨[], a, by simp⟩
      · cases hr
        simp at hx
    · cases hr
      exact .inr ⟨d, q, by simp⟩

end Lib
