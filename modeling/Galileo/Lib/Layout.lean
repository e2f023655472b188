import Mathlib.Algebra.Order.Ring.Nat
import Mathlib.Tactic.Ring
import Galileo.Lib.Bytes

/-!
# Values in memory

A number of `k` bytes as it lies in memory, low byte first (`le`, `unle`), and writing over a part
of a buffer (`overwrite`). `unle_le` is the round trip; `take_overwrite` says that what is in front
of the part stays.
-/

set_option autoImplicit false

namespace Lib

/-- The `k` bytes of a number, low byte first. -/
def le : Nat → Nat → Bytes
  | 0, _ => []
  | k + 1, n => UInt8.ofNat (n % 256) :: le k (n / 256)

/-- The number the bytes make. -/
def unle : Bytes → Nat
  | [] => 0
  | b :: s => b.toNat + 256 * unle s

@[simp] theorem length_le (k n : Nat) : (le k n).length = k := by
  induction k generalizing n with
  | zero => rfl
  | succ k ih => simp [le, ih]

theorem unle_le {k n : Nat} (h : n < 256 ^ k) : unle (le k n) = n := by
  induction k generalizing n with
  | zero =>
    have hn : n = 0 := by simpa using h
    subst hn
    rfl
  | succ k ih =>
    have hdiv : n / 256 < 256 ^ k := by
      rw [Nat.div_lt_iff_lt_mul (by decide)]
      rwa [pow_succ] at h
    have hlow : (UInt8.ofNat (n % 256)).toNat = n % 256 := by
      rw [UInt8.toNat_ofNat']
      exact Nat.mod_eq_of_lt (Nat.mod_lt n (by decide))
    rw [le, unle, ih hdiv, hlow]
    exact Nat.mod_add_div n 256

/-- The bytes of `d` written over `s` from `pos` on. -/
def overwrite (s : Bytes) (pos : Nat) (d : Bytes) : Bytes :=
  s.take pos ++ (d ++ s.drop (pos + d.length))

section Overwrite

variable {s d : Bytes} {pos : Nat}

theorem length_overwrite (h : pos + d.length ≤ s.length) :
    (overwrite s pos d).length = s.length := by
  simp only [overwrite, List.length_append, List.length_take, List.length_drop]
  omega

theorem take_overwrite (h : pos ≤ s.length) : (overwrite s pos d).take pos = s.take pos := by
  rw [overwrite, List.take_append_of_le_length (by simp [h]), List.take_take, Nat.min_self]

theorem take_add_overwrite (h : pos ≤ s.length) :
    (overwrite s pos d).take (pos + d.length) = s.take pos ++ d := by
  have hlen : (s.take pos ++ d).length = pos + d.length := by simp [h]
  rw [overwrite, ← List.append_assoc, ← hlen, List.take_left]

end Overwrite

end Lib
