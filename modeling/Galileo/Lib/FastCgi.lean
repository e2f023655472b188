import Mathlib.Algebra.Group.Nat.Defs
import Galileo.Lib.Bytes

/-!
# FastCGI records

The wire format of the FastCGI protocol, version 1: an eight-byte header (version, type, request
id, content length, padding length, reserved), the content, the padding. A `Record` carries its
length bounds, so a record that cannot be put on the wire cannot be built; `encode` is then total
and `records` is its inverse on any sequence of records (`records_encode`).

A record occupies `8 + content + padding` bytes whatever it says (`length_encode`), and reading
one off the front of a buffer never looks past its end (`readRecord_encode`) — the two facts a
receiver's framing is judged by.
-/

set_option autoImplicit false

namespace Lib.FastCgi

open Lib

/-! ## Record types, roles, statuses -/

def beginRequest : UInt8 := 1
def abortRequest : UInt8 := 2
def endRequestType : UInt8 := 3
def params : UInt8 := 4
def stdin : UInt8 := 5
def stdout : UInt8 := 6

def responder : Nat := 1
def keepConn : UInt8 := 1

def requestComplete : UInt8 := 0
def overloaded : UInt8 := 2
def unknownRole : UInt8 := 3

/-! ## Two-byte numbers -/

/-- The low byte of a two-byte number. -/
def byte0 (n : Nat) : UInt8 := UInt8.ofNat (n &&& 0xFF)

/-- The high byte. -/
def byte1 (n : Nat) : UInt8 := UInt8.ofNat (n >>> 8)

/-- The number two bytes make, low byte first. -/
def cat (f0 f1 : UInt8) : Nat := f0.toNat + f1.toNat <<< 8

theorem cat_lt (f0 f1 : UInt8) : cat f0 f1 < 65536 := by
  have h0 := f0.toNat_lt
  have h1 := f1.toNat_lt
  simp only [cat, Nat.shiftLeft_eq]
  omega

theorem cat_bytes {n : Nat} (h : n < 65536) : cat (byte0 n) (byte1 n) = n := by
  have hand : n &&& 255 = n % 256 := Nat.and_two_pow_sub_one_eq_mod n 8
  simp only [cat, byte0, byte1, UInt8.toNat_ofNat', Nat.shiftLeft_eq, Nat.shiftRight_eq_div_pow,
    hand]
  omega

/-! ## Records -/

structure Record where
  type : UInt8
  id : UInt16
  content : Bytes
  padding : Bytes
  content_le : content.length ≤ 65535
  padding_le : padding.length ≤ 255
deriving DecidableEq

namespace Record

def header (r : Record) : Bytes :=
  [1, r.type, byte1 r.id.toNat, byte0 r.id.toNat, byte1 r.content.length, byte0 r.content.length,
    UInt8.ofNat r.padding.length, 0]

def encode (r : Record) : Bytes := r.header ++ (r.content ++ r.padding)

@[simp] theorem length_header (r : Record) : r.header.length = 8 := rfl

theorem length_encode (r : Record) :
    r.encode.length = 8 + r.content.length + r.padding.length := by
  simp only [encode, List.length_append, length_header]
  omega

end Record

/-- Take one complete version-1 record off the front. -/
def readRecord : Bytes → Option (Record × Bytes)
  | v :: t :: i1 :: i0 :: l1 :: l0 :: p :: _ :: bs =>
      if h : v = 1 ∧ cat l0 l1 + p.toNat ≤ bs.length then
        some (⟨t, UInt16.ofNat (cat i0 i1), bs.take (cat l0 l1),
          (bs.drop (cat l0 l1)).take p.toNat,
          by have := cat_lt l0 l1; simp only [List.length_take]; omega,
          by have := p.toNat_lt; simp only [List.length_take]; omega⟩,
          bs.drop (cat l0 l1 + p.toNat))
      else none
  | _ => none

def recordsFuel : Nat → Bytes → Option (List Record)
  | 0, bs => if bs.isEmpty then some [] else none
  | n + 1, bs =>
      if bs.isEmpty then some []
      else match readRecord bs with
        | none => none
        | some (r, rest) => (recordsFuel n rest).map (r :: ·)

/-- The records a byte string consists of, if it consists of complete version-1 records. -/
def records (bs : Bytes) : Option (List Record) := recordsFuel bs.length bs

theorem readRecord_encode (r : Record) (bs : Bytes) :
    readRecord (r.encode ++ bs) = some (r, bs) := by
  have hc : r.content.length < 65536 := by have := r.content_le; omega
  have hp : r.padding.length < 256 := by have := r.padding_le; omega
  have hid : r.id.toNat < 65536 := r.id.toNat_lt
  have hpt : (UInt8.ofNat r.padding.length).toNat = r.padding.length := by
    rw [UInt8.toNat_ofNat']
    omega
  obtain ⟨t, id, content, padding, _, _⟩ := r
  simp only [Record.encode, Record.header, List.cons_append, List.nil_append, readRecord] at *
  rw [dif_pos]
  · simp only [cat_bytes hc, cat_bytes hid, hpt, Option.some.injEq, Prod.mk.injEq, Record.mk.injEq,
      UInt16.ofNat_toNat, List.append_assoc, true_and]
    refine ⟨⟨?_, ?_⟩, ?_⟩
    · simp
    · simp
    · rw [← List.append_assoc, ← List.length_append, List.drop_left]
  · simp only [cat_bytes hc, hpt, List.length_append, true_and]
    omega

theorem recordsFuel_encode :
    ∀ (rs : List Record) (n : Nat), rs.length ≤ n →
      recordsFuel n (rs.flatMap Record.encode) = some rs
  | [], 0, _ => rfl
  | [], _ + 1, _ => rfl
  | _ :: _, 0, h => by simp at h
  | r :: rs, n + 1, h => by
    have hne : (r.encode ++ rs.flatMap Record.encode).isEmpty = false := by
      simp [Record.encode, Record.header]
    rw [List.flatMap_cons, recordsFuel, hne, readRecord_encode]
    simp [recordsFuel_encode rs n (by simpa using h)]

/-- **Decoding undoes encoding**, for any sequence of records. -/
theorem records_encode (rs : List Record) : records (rs.flatMap Record.encode) = some rs := by
  refine recordsFuel_encode rs _ ?_
  induction rs with
  | nil => simp
  | cons r rs ih =>
    simp only [List.flatMap_cons, List.length_append, List.length_cons, Record.length_encode]
    omega

/-! ## Name-value pairs -/

/-- A length: one byte, or four with the top bit of the first set. -/
def encodeLen (n : Nat) : Bytes :=
  if n < 128 then [UInt8.ofNat n]
  else [UInt8.ofNat (128 + n / 2 ^ 24), UInt8.ofNat (n / 2 ^ 16), UInt8.ofNat (n / 2 ^ 8),
    UInt8.ofNat n]

def encodePair (p : Bytes × Bytes) : Bytes :=
  encodeLen p.1.length ++ (encodeLen p.2.length ++ (p.1 ++ p.2))

/-- Bytes in front of `m` bits and a number of these bits. -/
theorem shiftLeft_or {a b m : Nat} (h : b < 2 ^ m) : a <<< m ||| b = a * 2 ^ m + b := by
  rw [← Nat.shiftLeft_add_eq_or_of_lt h, Nat.shiftLeft_eq]

/-- One more byte of a number. -/
theorem byte_below (n k : Nat) :
    n / 2 ^ (k + 8) * 2 ^ (k + 8) + (n / 2 ^ k % 256) <<< k = (n / 2 ^ k) <<< k := by
  rw [Nat.shiftLeft_eq, Nat.shiftLeft_eq, Nat.pow_add, ← Nat.div_div_eq_div_mul,
    Nat.mul_comm (2 ^ k), ← Nat.mul_assoc, ← Nat.add_mul]
  exact congrArg (· * 2 ^ k) (Nat.div_add_mod' (n / 2 ^ k) 256)

theorem byte_shift_lt (n k : Nat) : (n % 256) <<< k < 2 ^ (k + 8) := by
  rw [Nat.shiftLeft_eq, Nat.pow_add, Nat.mul_comm]
  exact Nat.mul_lt_mul_of_pos_left (Nat.mod_lt n (by decide)) (Nat.two_pow_pos k)

/-- The four bytes of a long length, put together again. -/
theorem encodeLen_long {n : Nat} (h : n < 2 ^ 31) :
    ((128 + n / 2 ^ 24) % 256 &&& 0x7F) <<< 24 ||| (n / 2 ^ 16 % 256) <<< 16
      ||| (n / 2 ^ 8 % 256) <<< 8 ||| n % 256 = n := by
  have hand : (128 + n / 2 ^ 24) % 256 &&& 0x7F = n / 2 ^ 24 := by
    rw [show (0x7F : Nat) = 2 ^ 7 - 1 from rfl, Nat.and_two_pow_sub_one_eq_mod]
    omega
  have hlow : n % 256 < 2 ^ 8 := Nat.mod_lt n (by decide)
  rw [hand, shiftLeft_or (byte_shift_lt _ 16), byte_below n 16, shiftLeft_or (byte_shift_lt _ 8),
    byte_below n 8, shiftLeft_or hlow]
  exact Nat.div_add_mod' n 256

end Lib.FastCgi
