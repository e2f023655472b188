import Galileo.Lib.Bytes

/-!
# Percent-encoding

A browser sends a form as `application/x-www-form-urlencoded`, and a server reads a query by the
rules for URIs. The two agree on every byte but one: a form writes a blank as `+`, and in a URI a
`+` is a plus. `percentDecode_formEncode` is the exact disagreement.
-/

set_option autoImplicit false

namespace Lib.Uri

open Lib

/-! ## Digits -/

def hexVal (b : UInt8) : Option Nat :=
  if 48 ≤ b && b ≤ 57 then some (b.toNat - 48)
  else if 65 ≤ b && b ≤ 70 then some (b.toNat - 55)
  else if 97 ≤ b && b ≤ 102 then some (b.toNat - 87)
  else none

def hexChar (n : Nat) : UInt8 := UInt8.ofNat (if n < 10 then 48 + n else 55 + n)

theorem hexVal_hexChar : ∀ n < 16, hexVal (hexChar n) = some n := by decide

/-! ## Decoding -/

/-- Bytes as a URI spells them; a `%` without two digits behind it is itself. -/
def percentDecode : Bytes → Bytes
  | 37 :: h :: l :: s =>
      match hexVal h, hexVal l with
      | some a, some b => UInt8.ofNat (16 * a + b) :: percentDecode s
      | _, _ => 37 :: percentDecode (h :: l :: s)
  | b :: s => b :: percentDecode s
  | [] => []

theorem percentDecode_cons {b : UInt8} (h : b ≠ 37) (s : Bytes) :
    percentDecode (b :: s) = b :: percentDecode s := by
  rw [percentDecode]
  rintro h' l s' rfl
  exact absurd rfl h

theorem percentDecode_percent {h l : UInt8} (hno : hexVal h = none ∨ hexVal l = none) (s : Bytes) :
    percentDecode (37 :: h :: l :: s) = 37 :: percentDecode (h :: l :: s) := by
  rw [percentDecode]
  rcases hno with hno | hno
  · rw [hno]
  · rw [hno]
    cases hexVal h <;> rfl

/-- A `?` is no part of an escape, so what stands behind it is decoded by itself. -/
theorem length_percentDecode_append (r q : Bytes) :
    (percentDecode q).length < (percentDecode (r ++ 63 :: q)).length := by
  have h63 : percentDecode (63 :: q) = 63 :: percentDecode q := percentDecode_cons (by decide) q
  have hnone : hexVal 63 = none := by decide
  fun_induction percentDecode r with
  | case1 h l s a b ha hb ih =>
    simp only [List.cons_append, percentDecode, ha, hb, List.length_cons]
    omega
  | case2 h l s hno ih =>
    have hno' : hexVal h = none ∨ hexVal l = none := by
      by_contra hboth
      rw [not_or] at hboth
      obtain ⟨a, ha⟩ := Option.ne_none_iff_exists'.mp hboth.1
      obtain ⟨b, hb⟩ := Option.ne_none_iff_exists'.mp hboth.2
      exact hno a b ha hb
    rw [List.cons_append, List.cons_append, List.cons_append, percentDecode_percent hno',
      List.length_cons]
    exact Nat.lt_succ_of_lt ih
  | case3 b s hb ih =>
    have hcons : percentDecode (b :: (s ++ 63 :: q)) = b :: percentDecode (s ++ 63 :: q) := by
      by_cases h37 : b = 37
      · subst h37
        -- fewer than two bytes are left in front of the `?`
        rcases s with _ | ⟨h, _ | ⟨l, s⟩⟩
        · cases q with
          | nil => rfl
          | cons l q => exact percentDecode_percent (.inl hnone) q
        · exact percentDecode_percent (.inr hnone) q
        · exact absurd rfl (hb h l s rfl)
      · exact percentDecode_cons h37 _
    rw [List.cons_append, hcons, List.length_cons]
    exact Nat.lt_succ_of_lt ih
  | case4 =>
    rw [List.nil_append, h63, List.length_cons]
    exact Nat.lt_succ_self _

/-! ## Forms -/

/-- Bytes a form leaves alone. -/
def unreserved (b : UInt8) : Bool :=
  isalpha b || isdigit b || b == 42 || b == 45 || b == 46 || b == 95

def formByte (b : UInt8) : Bytes :=
  if b == 32 then [43]
  else if unreserved b then [b]
  else [37, hexChar (b.toNat / 16), hexChar (b.toNat % 16)]

/-- A text as the value of a field. -/
def formEncode (x : Bytes) : Bytes := x.flatMap formByte

theorem percentDecode_formByte (b : UInt8) (s : Bytes) :
    percentDecode (formByte b ++ s) = (if b = 32 then 43 else b) :: percentDecode s := by
  rw [formByte]
  by_cases hblank : b = 32
  · subst hblank
    exact percentDecode_cons (by decide) s
  rw [if_neg (by simpa using hblank), if_neg hblank]
  split
  · rename_i hun
    refine percentDecode_cons (fun h => ?_) s
    subst h
    exact absurd hun (by decide)
  · have hb := b.toNat_lt
    rw [List.cons_append, List.cons_append, List.cons_append, List.nil_append, percentDecode,
      hexVal_hexChar _ (by omega), hexVal_hexChar _ (by omega)]
    dsimp only
    rw [Nat.div_add_mod, UInt8.ofNat_toNat]

/-- **Read as a URI, a form has a plus for every blank**, and every other byte as it was. -/
theorem percentDecode_formEncode (x : Bytes) :
    percentDecode (formEncode x) = x.map fun b => if b = 32 then 43 else b := by
  induction x with
  | nil => rfl
  | cons b x ih =>
    rw [formEncode, List.flatMap_cons, percentDecode_formByte, List.map_cons, ← ih, formEncode]

theorem percentDecode_formEncode_eq_iff (x : Bytes) :
    percentDecode (formEncode x) = x ↔ 32 ∉ x := by
  rw [percentDecode_formEncode]
  constructor
  · intro h hmem
    rw [← h] at hmem
    obtain ⟨b, -, hb⟩ := List.mem_map.mp hmem
    split at hb
    · cases hb
    · rename_i hne
      exact hne hb
  · intro hno
    refine (List.map_congr_left fun b hb => if_neg ?_).trans (List.map_id _)
    rintro rfl
    exact hno hb

/-- The bytes of an encoded field. -/
def formChar (b : UInt8) : Bool := unreserved b || b == 43 || b == 37

theorem formChar_formByte (b : UInt8) : ∀ a ∈ formByte b, formChar a = true := by
  have hhex : ∀ n < 16, formChar (hexChar n) = true := by decide
  have hb := b.toNat_lt
  rw [formByte]
  split
  · exact List.forall_mem_singleton.mpr rfl
  split
  · rename_i hun
    intro a ha
    rw [List.mem_singleton.mp ha, formChar, hun]
    rfl
  · intro a ha
    simp only [List.mem_cons, List.not_mem_nil, or_false] at ha
    rcases ha with rfl | rfl | rfl
    · decide
    · exact hhex _ (by omega)
    · exact hhex _ (by omega)

theorem formChar_formEncode {x : Bytes} {a : UInt8} (ha : a ∈ formEncode x) :
    formChar a = true := by
  obtain ⟨b, -, hb⟩ := List.mem_flatMap.mp ha
  exact formChar_formByte b a hb

/-! ## The parts of a URL -/

/-- Neither `?` nor `#`: all of it is path. -/
def Bare (s : Bytes) : Prop := 63 ∉ s ∧ 35 ∉ s

instance (s : Bytes) : Decidable (Bare s) := inferInstanceAs (Decidable (_ ∧ _))

theorem bare_append {s t : Bytes} : Bare (s ++ t) ↔ Bare s ∧ Bare t := by
  simp only [Bare, List.mem_append, not_or]
  tauto

/-- What stands in front of the query and the fragment. -/
def urlPath (url : Bytes) : Bytes := url.takeWhile fun b => b != 63 && b != 35

theorem urlPath_append {a : Bytes} (h : Bare a) (q : Bytes) : urlPath (a ++ 63 :: q) = a := by
  have hall : ∀ b ∈ a, (b != 63 && b != 35) = true := by
    intro b hb
    rw [Bool.and_eq_true, bne_iff_ne, bne_iff_ne]
    exact ⟨fun heq => h.1 (heq ▸ hb), fun heq => h.2 (heq ▸ hb)⟩
  rw [urlPath, List.takeWhile_append_of_pos hall]
  exact List.append_nil a

/-- What stands behind the first `?` and in front of the first `#`. -/
def urlQuery (url : Bytes) : Option Bytes :=
  match (url.takeWhile (· != 35)).dropWhile (· != 63) with
  | [] => none
  | _ :: q => some q

/-- Nothing counts behind a fragment. -/
theorem urlQuery_append_of_fragment {a : Bytes} (h : 35 ∈ a) (b : Bytes) :
    urlQuery (a ++ b) = urlQuery a := by
  have hcut : (a ++ b).takeWhile (· != 35) = a.takeWhile (· != 35) := by
    rw [List.takeWhile_append, if_neg]
    intro hlen
    have hall := List.takeWhile_eq_self_iff.mp
      ((List.takeWhile_prefix _).eq_of_length hlen) 35 h
    simp at hall
  rw [urlQuery, urlQuery, hcut]

/-- With a query added to a URL that has no fragment, it is the query, or the end of one. -/
theorem urlQuery_append {a q : Bytes} (ha : 35 ∉ a) (hq : 35 ∉ q) :
    urlQuery (a ++ 63 :: q)
      = some (if 63 ∈ a then (a.dropWhile (· != 63)).tail ++ 63 :: q else q) := by
  have hcut : (a ++ 63 :: q).takeWhile (· != 35) = a ++ 63 :: q := by
    refine List.takeWhile_eq_self_iff.mpr fun b hb => ?_
    simp only [List.mem_append, List.mem_cons] at hb
    rcases hb with hb | rfl | hb
    · exact bne_iff_ne.mpr fun h => ha (h ▸ hb)
    · decide
    · exact bne_iff_ne.mpr fun h => hq (h ▸ hb)
  rw [urlQuery, hcut, List.dropWhile_append]
  split_ifs with hempty hmem hmem
  · have := List.dropWhile_eq_nil_iff.mp (List.isEmpty_iff.mp hempty) 63 hmem
    simp at this
  · rfl
  · cases hdrop : a.dropWhile (· != 63) with
    | nil => simp [hdrop] at hempty
    | cons b r => rfl
  · refine absurd (List.isEmpty_iff.mpr (List.dropWhile_eq_nil_iff.mpr fun b hb => ?_)) hempty
    exact bne_iff_ne.mpr fun h => hmem (h ▸ hb)

end Lib.Uri
