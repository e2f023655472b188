import Mathlib.Data.List.Basic
import Mathlib.Data.List.TakeWhile

/-!
# Byte strings, the C locale, and event buffers

The vocabulary a C program that shuffles bytes is written in, as total functions on
`List UInt8`. Nothing here knows what the bytes are for.

* **C strings.** A `char *` is represented by the bytes in front of its terminator, so
  `strncmp(s, "lit", n) == 0` is `isPrefixOf`, advancing a pointer is `drop`, and the suffix
  `strchr` returns is a suffix of the list. `cstr` cuts a raw block of memory at its first NUL.
* **The C locale.** The `ctype` predicates are the ASCII ones; bytes from 128 on are in no class.
* **Event buffers.** An `evbuffer` is the list of the bytes it holds. Draining more than there is
  empties it; removing more than there is leaves the rest of the destination as it was, which is
  what the second half of the argument of `evbufferRemove` stands for.
-/

set_option autoImplicit false

namespace Lib

abbrev Bytes := List UInt8

/-- The bytes of a literal. -/
def lit (s : String) : Bytes := s.toUTF8.data.toList

/-! ## The C locale -/

def isdigit (b : UInt8) : Bool := 48 ≤ b && b ≤ 57

def isalpha (b : UInt8) : Bool := (65 ≤ b && b ≤ 90) || (97 ≤ b && b ≤ 122)

def iscntrl (b : UInt8) : Bool := b < 32 || b == 127

def isspace (b : UInt8) : Bool := b == 32 || (9 ≤ b && b ≤ 13)

def tolower (b : UInt8) : UInt8 := if 65 ≤ b && b ≤ 90 then b + 32 else b

/-- `strspn(s, " \t")` is the length of the prefix this predicate holds on. -/
def isblank (b : UInt8) : Bool := b == 32 || b == 9

/-! ## C strings -/

/-- A block of memory read as a C string. -/
def cstr (s : Bytes) : Bytes := s.takeWhile (· != 0)

theorem cstr_eq_self {s : Bytes} (h : 0 ∉ s) : cstr s = s := by
  refine List.takeWhile_eq_self_iff.mpr fun b hb => bne_iff_ne.mpr ?_
  rintro rfl
  exact h hb

/-- The suffix that starts at the first `c`. -/
def strchr (c : UInt8) : Bytes → Option Bytes
  | [] => none
  | b :: s => if b == c then some (b :: s) else strchr c s

/-- The suffix that starts with the first occurrence of `needle`. -/
def strstr (needle : Bytes) : Bytes → Option Bytes
  | [] => if needle.isEmpty then some [] else none
  | b :: s => if needle.isPrefixOf (b :: s) then some (b :: s) else strstr needle s

/-- Equality up to ASCII case: `!strcasecmp(a, b)`. -/
def caseEq (a b : Bytes) : Bool := a.map tolower == b.map tolower

theorem length_of_caseEq {a b : Bytes} (h : caseEq a b = true) : a.length = b.length := by
  rw [caseEq, beq_iff_eq] at h
  simpa using congrArg List.length h

theorem not_mem_of_caseEq {a b : Bytes} {x : UInt8} (h : caseEq a b = true)
    (hx : tolower x ∉ b.map tolower) : x ∉ a := by
  rw [caseEq, beq_iff_eq] at h
  exact fun hmem => hx (h ▸ List.mem_map_of_mem hmem)

/-- What `strlcpy(dst, src, siz)` leaves in `dst`. -/
def strlcpy (siz : Nat) (src : Bytes) : Bytes := src.take (siz - 1)

/-- What is in front of the last `c`, and what is behind it: `strrchr`. -/
def splitLast (c : UInt8) : Bytes → Option (Bytes × Bytes)
  | [] => none
  | b :: s =>
      match splitLast c s with
      | some (front, rest) => some (b :: front, rest)
      | none => if b == c then some ([], s) else none

/-- `strtoll(s, &ep, 10)`: the number and the text at `ep`, or `none` when there is no digit. It
does not saturate. -/
def strtoll (s : Bytes) : Option (Int × Bytes) :=
  let s := s.dropWhile isspace
  let (neg, s) := match s with
    | 45 :: s => (true, s)
    | 43 :: s => (false, s)
    | s => (false, s)
  let n : Nat := (s.takeWhile isdigit).foldl (fun n b => 10 * n + (b.toNat - 48)) 0
  if (s.takeWhile isdigit).isEmpty then none
  else some (if neg then -(n : Int) else n, s.dropWhile isdigit)

/-- `strtonum(s, min, max, &errstr)`, `none` when it sets `errstr`. -/
def strtonum (s : Bytes) (min max : Int) : Option Int :=
  match strtoll s with
  | some (n, []) => if n < min ∨ max < n then none else some n
  | _ => none

/-- `"%d"`. -/
def fmtNat (n : Nat) : Bytes := (Nat.toDigits 10 n).map fun c => UInt8.ofNat c.toNat

def fmtInt : Int → Bytes
  | .ofNat n => fmtNat n
  | .negSucc n => lit "-" ++ fmtNat (n + 1)

/-- One digit of `"%X"`. -/
def hexDigit (c : Char) : UInt8 := UInt8.ofNat (if c.isLower then c.toNat - 32 else c.toNat)

/-- `"%2X"`: padded on the left with a *space*, and as wide as it has to be. -/
def fmtHex2 (n : Nat) : Bytes :=
  if n < 16 then 32 :: (Nat.toDigits 16 n).map hexDigit
  else (Nat.toDigits 16 n).map hexDigit

theorem mem_toDigits_hex {n : Nat} {c : Char} (h : c ∈ Nat.toDigits 16 n) :
    ∃ d < 16, c = Nat.digitChar d := by
  induction n using Nat.strong_induction_on with
  | _ n ih =>
    rw [Nat.toDigits_eq_if (by decide)] at h
    split_ifs at h with hn
    · exact ⟨n, hn, by simpa using h⟩
    · rcases List.mem_append.mp h with h | h
      · exact ih (n / 16) (by omega) h
      · exact ⟨n % 16, Nat.mod_lt _ (by decide), by simpa using h⟩

/-- `"%2X"` writes a blank and hexadecimal digits, however many. -/
theorem mem_fmtHex2 {n : Nat} {b : UInt8} (h : b ∈ fmtHex2 n) :
    b = 32 ∨ ∃ d < 16, b = hexDigit (Nat.digitChar d) := by
  have hdigit (h : b ∈ (Nat.toDigits 16 n).map hexDigit) :
      ∃ d < 16, b = hexDigit (Nat.digitChar d) := by
    obtain ⟨c, hc, rfl⟩ := List.mem_map.mp h
    obtain ⟨d, hd, rfl⟩ := mem_toDigits_hex hc
    exact ⟨d, hd, rfl⟩
  rw [fmtHex2] at h
  split_ifs at h
  · rcases List.mem_cons.mp h with h | h
    · exact .inl h
    · exact .inr (hdigit h)
  · exact .inr (hdigit h)

/-! ## Event buffers -/

/-- `evbuffer_remove(src, dst, n)`: the `n` bytes `dst` then holds, and what stays in the buffer.
Bytes the buffer does not have are read as zero; a caller that cares for what an uninitialised
`dst` may hold appends it to `src`. -/
def evbufferRemove (n : Nat) (src : Bytes) : Bytes × Bytes :=
  ((src ++ List.replicate n 0).take n, src.drop n)

def evbufferDrain (n : Nat) (src : Bytes) : Bytes := src.drop n

/-- The line in front of the first LF, and what follows the LF. -/
def splitLf : Bytes → Option (Bytes × Bytes)
  | [] => none
  | b :: s => if b == 10 then some ([], s) else (splitLf s).map fun p => (b :: p.1, p.2)

/-- Drop one CR at the end. -/
def stripCr (l : Bytes) : Bytes := if l.getLast? == some 13 then l.dropLast else l

/-- `evbuffer_readln` with `EVBUFFER_EOL_CRLF`. -/
def readlnCrlf (src : Bytes) : Option (Bytes × Bytes) :=
  (splitLf src).map fun p => (stripCr p.1, p.2)

/-- `evbuffer_readln` with `EVBUFFER_EOL_CRLF_STRICT`. -/
def readlnCrlfStrict : Bytes → Option (Bytes × Bytes)
  | [] => none
  | b :: s =>
      if b == 13 && s.head? == some 10 then some ([], s.tail)
      else (readlnCrlfStrict s).map fun p => (b :: p.1, p.2)

/-- Eight bytes, the size of a header, can be named. -/
theorem exists_eight {α : Type} {l : List α} (h : 8 ≤ l.length) :
    ∃ b0 b1 b2 b3 b4 b5 b6 b7 rest, l = b0 :: b1 :: b2 :: b3 :: b4 :: b5 :: b6 :: b7 :: rest := by
  match l, h with
  | b0 :: b1 :: b2 :: b3 :: b4 :: b5 :: b6 :: b7 :: rest, _ =>
    exact ⟨b0, b1, b2, b3, b4, b5, b6, b7, rest, rfl⟩

end Lib
