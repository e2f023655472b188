import Galileo.Lib.Uri

/-!
# C string literals

What a string literal denotes, by the escape rules of C: the simple escapes, octal and hexadecimal
ones, and universal character names, which stand for their encoding in UTF-8. `readLiteral` reads
one literal at the start of a text and leaves the text behind its closing quote. There is no value
when the literal does not end on its line, or has an escape that C does not allow (or whose value is
no character). Trigraphs are not replaced.

`two_mul_length_readChars` is what escapes cost: a quote or a backslash between the quotes of a
literal is never there for nothing.
-/

set_option autoImplicit false

namespace Lib.Literal

open Lib.Uri

/-! ## Escapes -/

def isOctal (b : UInt8) : Bool := 48 ≤ b && b ≤ 55

def octalVal (ds : Bytes) : Nat := ds.foldl (fun n b => 8 * n + (b.toNat - 48)) 0

def hexDigits (ds : Bytes) : Nat := ds.foldl (fun n b => 16 * n + (hexVal b).getD 0) 0

/-- The byte a simple escape stands for. -/
def simple (c : UInt8) : Option UInt8 :=
  if c = 39 ∨ c = 34 ∨ c = 63 ∨ c = 92 then some c
  else if c = 97 then some 7
  else if c = 98 then some 8
  else if c = 102 then some 12
  else if c = 110 then some 10
  else if c = 114 then some 13
  else if c = 116 then some 9
  else if c = 118 then some 11
  else none

/-- UTF-8, for a universal character name that C allows. -/
def utf8 (n : Nat) : Option Bytes :=
  if n < 0xA0 then if n = 0x24 ∨ n = 0x40 ∨ n = 0x60 then some [UInt8.ofNat n] else none
  else if n < 0x800 then some [UInt8.ofNat (0xC0 + n / 64), UInt8.ofNat (0x80 + n % 64)]
  else if 0xD800 ≤ n ∧ n ≤ 0xDFFF then none
  else if n < 0x10000 then
    some [UInt8.ofNat (0xE0 + n / 4096), UInt8.ofNat (0x80 + n / 64 % 64),
      UInt8.ofNat (0x80 + n % 64)]
  else if n ≤ 0x10FFFF then
    some [UInt8.ofNat (0xF0 + n / 262144), UInt8.ofNat (0x80 + n / 4096 % 64),
      UInt8.ofNat (0x80 + n / 64 % 64), UInt8.ofNat (0x80 + n % 64)]
  else none

/-- A character constant's value, if it is one of a `char`. -/
def charVal (n : Nat) : Option Bytes := if n ≤ 255 then some [UInt8.ofNat n] else none

/-- Exactly `k` hexadecimal digits. -/
def universal (k : Nat) (s : Bytes) : Option Bytes :=
  if (s.take k).length = k ∧ (s.take k).all fun b => (hexVal b).isSome then
    utf8 (hexDigits (s.take k))
  else none

/-- How many bytes behind the backslash an escape takes. -/
def escapeLength (s : Bytes) : Nat :=
  match s with
  | [] => 0
  | c :: r =>
      if isOctal c then ((c :: r).take 3 |>.takeWhile isOctal).length
      else if c = 120 then 1 + (r.takeWhile fun b => (hexVal b).isSome).length
      else if c = 117 then 5
      else if c = 85 then 9
      else 1

/-- What an escape stands for. -/
def escapeVal (s : Bytes) : Option Bytes :=
  match s with
  | [] => none
  | c :: r =>
      if isOctal c then charVal (octalVal ((c :: r).take 3 |>.takeWhile isOctal))
      else if c = 120 then
        let ds := r.takeWhile fun b => (hexVal b).isSome
        if ds.isEmpty then none else charVal (hexDigits ds)
      else if c = 117 then universal 4 r
      else if c = 85 then universal 8 r
      else (simple c).map fun b => [b]

/-! ## Literals -/

/-- A literal from behind its opening quote on, with at most so many characters in it. -/
def readChars : Nat → Bytes → Option (Bytes × Bytes)
  | 0, _ => none
  | _ + 1, [] => none
  | n + 1, c :: r =>
      if c = 34 then some ([], r)
      else if c = 10 then none
      else if c = 92 then do
        let bs ← escapeVal r
        let (d, rest) ← readChars n (r.drop (escapeLength r))
        return (bs ++ d, rest)
      else do
        let (d, rest) ← readChars n r
        return (c :: d, rest)

def readLiteral : Bytes → Option (Bytes × Bytes)
  | 34 :: r => readChars r.length r
  | _ => none

/-! ## What escapes cost -/

/-- Quotes and backslashes. -/
def marks (s : Bytes) : Nat := s.count 92 + s.count 34

theorem marks_append (s t : Bytes) : marks (s ++ t) = marks s + marks t := by
  unfold marks
  rw [List.count_append, List.count_append]
  omega

theorem marks_cons_of_ne {c : UInt8} (h : c ≠ 92) (h' : c ≠ 34) (s : Bytes) :
    marks (c :: s) = marks s := by
  unfold marks
  rw [List.count_cons_of_ne h, List.count_cons_of_ne h']

theorem marks_eq_zero {p : UInt8 → Bool} (hp : p 92 = false) (hp' : p 34 = false) {s : Bytes}
    (h : ∀ b ∈ s, p b = true) : marks s = 0 := by
  unfold marks
  rw [List.count_eq_zero.mpr fun hm => ?_, List.count_eq_zero.mpr fun hm => ?_]
  · rw [h 34 hm] at hp'
    cases hp'
  · rw [h 92 hm] at hp
    cases hp

theorem charVal_length {n : Nat} {bs : Bytes} (h : charVal n = some bs) : bs.length = 1 := by
  unfold charVal at h
  split_ifs at h
  cases h
  rfl

theorem utf8_length {n : Nat} {bs : Bytes} (h : utf8 n = some bs) : bs.length ≤ 4 := by
  unfold utf8 at h
  split_ifs at h <;> cases h <;> simp

theorem universal_cost {k : Nat} {s bs : Bytes} (h : universal k s = some bs) :
    k ≤ s.length ∧ bs.length ≤ 4 ∧ marks (s.take k) = 0 := by
  unfold universal at h
  split_ifs at h with hdigits
  refine ⟨?_, utf8_length h, marks_eq_zero (by decide) (by decide) (List.all_eq_true.mp hdigits.2)⟩
  have hlen := hdigits.1
  rw [List.length_take] at hlen
  omega

theorem take_length_takeWhile (p : UInt8 → Bool) (s : Bytes) :
    s.take (s.takeWhile p).length = s.takeWhile p :=
  (List.prefix_iff_eq_take.mp (List.takeWhile_prefix p)).symm

/-- An escape is longer than what it stands for, by more than its quotes and backslashes. -/
theorem escape_cost {s bs : Bytes} (h : escapeVal s = some bs) :
    escapeLength s ≤ s.length ∧
      2 * bs.length + marks (s.take (escapeLength s)) ≤ 2 * escapeLength s + 1 := by
  cases s with
  | nil => cases h
  | cons c r =>
    unfold escapeVal at h
    unfold escapeLength
    dsimp only at h ⊢
    by_cases hoct : isOctal c = true
    · rw [if_pos hoct] at h ⊢
      -- the digits are a first part of the text
      have hpre : ((c :: r).take 3).takeWhile isOctal <+: c :: r :=
        (List.takeWhile_prefix _).trans (List.take_prefix _ _)
      have htake := List.prefix_iff_eq_take.mp hpre
      have hone : 1 ≤ (((c :: r).take 3).takeWhile isOctal).length := by
        rw [List.take_succ_cons, List.takeWhile_cons_of_pos hoct, List.length_cons]
        omega
      have hmarks : marks (((c :: r).take 3).takeWhile isOctal) = 0 :=
        marks_eq_zero (by decide) (by decide) fun b hb => List.mem_takeWhile_imp hb
      rw [← htake, charVal_length h, hmarks]
      exact ⟨hpre.length_le, by omega⟩
    rw [if_neg hoct] at h ⊢
    by_cases hx : c = 120
    · rw [if_pos hx] at h ⊢
      have hmarks : marks (r.takeWhile fun b => (hexVal b).isSome) = 0 :=
        marks_eq_zero (by decide) (by decide) fun b hb => List.mem_takeWhile_imp hb
      have hlen := (List.takeWhile_prefix (fun b => (hexVal b).isSome) (l := r)).length_le
      split_ifs at h with hempty
      rw [Nat.add_comm 1, List.take_succ_cons, take_length_takeWhile,
        marks_cons_of_ne (by rw [hx]; decide) (by rw [hx]; decide), hmarks, charVal_length h,
        List.length_cons]
      exact ⟨by omega, by omega⟩
    rw [if_neg hx] at h ⊢
    by_cases hu : c = 117
    · rw [if_pos hu] at h ⊢
      obtain ⟨hlen, hbs, hmarks⟩ := universal_cost h
      rw [List.take_succ_cons, marks_cons_of_ne (by rw [hu]; decide) (by rw [hu]; decide), hmarks,
        List.length_cons]
      exact ⟨by omega, by omega⟩
    rw [if_neg hu] at h ⊢
    by_cases hU : c = 85
    · rw [if_pos hU] at h ⊢
      obtain ⟨hlen, hbs, hmarks⟩ := universal_cost h
      rw [List.take_succ_cons, marks_cons_of_ne (by rw [hU]; decide) (by rw [hU]; decide), hmarks,
        List.length_cons]
      exact ⟨by omega, by omega⟩
    rw [if_neg hU] at h ⊢
    obtain ⟨b, -, rfl⟩ := Option.map_eq_some_iff.mp h
    have hmarks : marks [c] ≤ 1 := by
      by_cases h92 : c = 92
      · rw [h92]
        decide
      · by_cases h34 : c = 34
        · rw [h34]
          decide
        · rw [marks_cons_of_ne h92 h34]
          decide
    refine ⟨Nat.succ_le_succ (Nat.zero_le _), ?_⟩
    show 2 * 1 + marks [c] ≤ 2 * 1 + 1
    omega

/-- **What is between the quotes is longer than what it denotes**, by at least half the number of
its quotes and backslashes. -/
theorem two_mul_length_readChars {n : Nat} {s d rest : Bytes} (h : readChars n s = some (d, rest)) :
    ∃ body, s = body ++ 34 :: rest ∧ 2 * d.length + marks body ≤ 2 * body.length := by
  induction n generalizing s d with
  | zero => cases h
  | succ n ih =>
    cases s with
    | nil => cases h
    | cons c r =>
      rw [readChars] at h
      by_cases hquote : c = 34
      · rw [if_pos hquote] at h
        cases h
        exact ⟨[], by rw [hquote]; rfl, Nat.le_refl 0⟩
      rw [if_neg hquote] at h
      split_ifs at h with hnl hback
      · -- an escape
        obtain ⟨bs, hbs, h⟩ := Option.bind_eq_some_iff.mp h
        obtain ⟨⟨d', rest'⟩, hd, h⟩ := Option.bind_eq_some_iff.mp h
        cases h
        obtain ⟨body, hbody, hcost⟩ := ih hd
        obtain ⟨hlen, hesc⟩ := escape_cost hbs
        refine ⟨92 :: (r.take (escapeLength r) ++ body), ?_, ?_⟩
        · rw [hback, List.cons_append, List.append_assoc, ← hbody, List.take_append_drop]
        · rw [← List.singleton_append, marks_append, marks_append, List.length_append,
            List.length_append, List.length_append, List.length_take, Nat.min_eq_left hlen,
            show marks [92] = 1 from rfl, List.length_singleton]
          omega
      · obtain ⟨⟨d', rest'⟩, hd, h⟩ := Option.bind_eq_some_iff.mp h
        cases h
        obtain ⟨body, hbody, hcost⟩ := ih hd
        refine ⟨c :: body, by rw [hbody]; rfl, ?_⟩
        rw [marks_cons_of_ne hback hquote, List.length_cons, List.length_cons]
        omega

end Lib.Literal
