import Galileo.Lib.Literal
import Galileo.Model.Compiler

/-!
# The literal of a `tp_write`

`printq` puts a backslash in front of a quote and of nothing else. A backslash of the text itself is
therefore the start of an escape for the C compiler: what is denoted is shorter than the text, whose
length is printed behind the literal, or the literal does not end where it should.
-/

set_option autoImplicit false

namespace Galileo.Tmpl

open Lib Lib.Literal

/-- What `printq` prints between the quotes. -/
def quoted (s : Bytes) : Bytes := s.flatMap fun b => if b == 34 then [92, b] else [b]

theorem printqLoop_eq (s : Bytes) : printqLoop s = quoted s ++ [34] := by
  induction s with
  | nil => rfl
  | cons b s ih =>
    rw [printqLoop, quoted, List.flatMap_cons, List.append_assoc, ← quoted, ← ih]
    split <;> rfl

theorem length_quoted (s : Bytes) : (quoted s).length = s.length + s.count 34 := by
  induction s with
  | nil => rfl
  | cons b s ih =>
    rw [quoted, List.flatMap_cons, List.length_append, ← quoted, ih, List.count_cons,
      List.length_cons]
    split
    · simp only [List.length_cons, List.length_nil]
      omega
    · simp only [List.length_cons, List.length_nil]
      omega

theorem marks_quoted (s : Bytes) : marks (quoted s) = s.count 92 + 2 * s.count 34 := by
  induction s with
  | nil => rfl
  | cons b s ih =>
    rw [quoted, List.flatMap_cons, marks_append, ← quoted, ih]
    by_cases hquote : b = 34
    · subst hquote
      rw [List.count_cons_self, List.count_cons_of_ne (by decide),
        show marks (if (34 : UInt8) == 34 then [92, 34] else [34]) = 2 from rfl]
      omega
    · rw [if_neg (by simpa using hquote), List.count_cons_of_ne hquote]
      by_cases hback : b = 92
      · subst hback
        rw [List.count_cons_self, show marks [(92 : UInt8)] = 1 from rfl]
        omega
      · rw [marks_cons_of_ne hback hquote, List.count_cons_of_ne hback,
          show marks [] = 0 from rfl, Nat.zero_add]

/-- A text without backslashes is read back. -/
theorem readChars_quoted {s : Bytes} (hback : 92 ∉ s) (hline : 10 ∉ s) (rest : Bytes) {n : Nat}
    (hn : s.length < n) : readChars n (quoted s ++ 34 :: rest) = some (s, rest) := by
  induction s generalizing n with
  | nil =>
    obtain ⟨n, rfl⟩ := Nat.exists_eq_add_of_lt hn
    rfl
  | cons b s ih =>
    rw [List.mem_cons, not_or] at hback hline
    obtain _ | n := n
    · omega
    have hrest := ih hback.2 hline.2 (Nat.lt_of_succ_lt_succ hn)
    rw [quoted, List.flatMap_cons, List.append_assoc, ← quoted]
    by_cases hquote : b = 34
    · subst hquote
      show (readChars n (quoted s ++ 34 :: rest)).bind _ = _
      rw [hrest]
      rfl
    · rw [if_neg (by simpa using hquote), List.singleton_append, readChars, if_neg hquote,
        if_neg (Ne.symm hline.1), if_neg (Ne.symm hback.1), hrest]
      rfl

/-- What is denoted by a literal that ends where it should is too short for a text with a
backslash. -/
theorem length_lt_of_read {s d rest : Bytes} (h : readLiteral (printq s ++ rest) = some (d, rest))
    (hback : 92 ∈ s) : d.length < s.length := by
  rw [printq, printqLoop_eq, List.cons_append, List.append_assoc] at h
  obtain ⟨body, hbody, hcost⟩ := two_mul_length_readChars h
  have hsame : quoted s = body := List.append_cancel_right hbody
  rw [← hsame, marks_quoted, length_quoted] at hcost
  have hpos := List.count_pos_iff.mpr hback
  omega

/-- **The literal denotes the text exactly when there is no backslash in it.** It is read in the
line it is printed in, and the length printed behind it is the length of what it denotes. -/
theorem literal_denotes_iff (s : Bytes) (hline : 10 ∉ s) :
    (∃ d, readLiteral (printq s ++ rawTail s) = some (d, rawTail s) ∧ d = s ∧
      s.length = d.length) ↔ 92 ∉ s := by
  constructor
  · rintro ⟨d, hread, rfl, -⟩ hback
    exact Nat.lt_irrefl _ (length_lt_of_read hread hback)
  · intro hback
    refine ⟨s, ?_, rfl, rfl⟩
    rw [printq, printqLoop_eq, List.cons_append, List.append_assoc]
    refine readChars_quoted hback hline _ ?_
    rw [List.singleton_append, List.length_append, length_quoted, List.length_cons]
    omega

theorem quote_denoted : ∃ d, readLiteral (printq (lit "<a href=\"/\">") ++
    rawTail (lit "<a href=\"/\">")) = some (d, rawTail (lit "<a href=\"/\">")) ∧
      d = lit "<a href=\"/\">" ∧ (lit "<a href=\"/\">").length = d.length :=
  (literal_denotes_iff (lit "<a href=\"/\">") (by decide)).mpr (by decide)

/-- `\n` denotes one byte where two are written, and a backslash at the end escapes the closing
quote. -/
theorem backslash_not_denoted :
    readLiteral (printq (lit "a\\n") ++ rawTail (lit "a\\n")) =
        some (lit "a\n", rawTail (lit "a\\n")) ∧
      readLiteral (printq (lit "a\\") ++ rawTail (lit "a\\")) = none := by
  constructor <;> decide

end Galileo.Tmpl
