import Galileo.Lib.Uri
import Galileo.Proof.Writer

/-!
# What `tp_urlescape` makes of a string

The escape of a byte is `%` and the byte in hexadecimal, and the field is two wide. So a byte of
two digits is escaped as a URI wants it, and a byte of one digit is padded, with a blank: the one
byte the function is there to keep out. `urlescape_lossless_iff` is that exact line.

Above it nothing is lost, although a `%` is passed through as it is and the escapes of the string
stand beside the escapes the function adds. A byte it escapes is no digit, and what it becomes
starts with `%`, which is no digit either: no `%` of the string ever completes to an escape it was
not (`percentDecode_flatMap_escaped`).
-/

set_option autoImplicit false

namespace Galileo

open Lib Lib.Uri

variable {b : UInt8}

/-! ## One byte -/

/-- What one byte is written as. -/
def escaped (b : UInt8) : Bytes := if urlUnsafe b then urlescapeTmp b else [b]

/-- Two digits, when there are two. -/
theorem fmtHex2_eq {n : Nat} (hlo : 16 ≤ n) (hhi : n < 256) :
    fmtHex2 n = [hexChar (n / 16), hexChar (n % 16)] := by
  have hdigit : ∀ d < 16, hexDigit (Nat.digitChar d) = hexChar d := by decide
  have hq : n / 16 < 16 := by omega
  have hr : n % 16 < 16 := by omega
  rw [fmtHex2, if_neg (by omega), Nat.toDigits_eq_if (by decide), if_neg (by omega),
    Nat.toDigits_eq_if (by decide), if_pos hq]
  show [hexDigit (Nat.digitChar (n / 16)), hexDigit (Nat.digitChar (n % 16))] = _
  rw [hdigit _ hq, hdigit _ hr]

/-- In the C locale no byte above 127 is escaped, so the sign of a `char` never shows. -/
theorem lt_of_urlUnsafe (h : urlUnsafe b = true) : b < 128 := by
  simp only [urlUnsafe, iscntrl, isspace, Bool.or_eq_true, Bool.and_eq_true, decide_eq_true_eq,
    beq_iff_eq] at h
  rcases h with ((((h | rfl) | rfl | h) | rfl) | rfl) | rfl
  · exact UInt8.lt_trans h (by decide)
  · decide
  · decide
  · exact UInt8.lt_of_le_of_lt h.2 (by decide)
  all_goals decide

theorem urlUnsafe_of_lt (h : b < 16) : urlUnsafe b = true := by
  have h32 : b < 32 := UInt8.lt_trans h (by decide)
  simp [urlUnsafe, iscntrl, h32]

theorem urlescapeTmp_of_urlUnsafe (h : urlUnsafe b = true) :
    urlescapeTmp b = 37 :: fmtHex2 b.toNat := by
  have hpercent : lit "%" = [37] := by decide
  rw [urlescapeTmp, if_pos (lt_of_urlUnsafe h), hpercent]
  rfl

theorem urlescapeTmp_of_le (h : urlUnsafe b = true) (hb : 16 ≤ b) :
    urlescapeTmp b = [37, hexChar (b.toNat / 16), hexChar (b.toNat % 16)] := by
  have hlo : 16 ≤ b.toNat := hb
  rw [urlescapeTmp_of_urlUnsafe h, fmtHex2_eq hlo b.toNat_lt]

/-- The padding of a byte of one digit. -/
theorem urlescapeTmp_of_lt (hb : b < 16) : urlescapeTmp b = [37, 32, hexChar b.toNat] := by
  have hdigit : ∀ d < 16, hexDigit (Nat.digitChar d) = hexChar d := by decide
  have hlt : b.toNat < 16 := hb
  rw [urlescapeTmp_of_urlUnsafe (urlUnsafe_of_lt hb), fmtHex2, if_pos hlt,
    Nat.toDigits_eq_if (by decide), if_pos hlt]
  show [37, 32, hexDigit (Nat.digitChar b.toNat)] = _
  rw [hdigit _ hlt]

/-- An escape always fits `tmp[4]`. -/
theorem length_urlescapeTmp (h : urlUnsafe b = true) : (urlescapeTmp b).length = 3 := by
  by_cases hb : 16 ≤ b
  · rw [urlescapeTmp_of_le h hb]
    rfl
  · rw [urlescapeTmp_of_lt (UInt8.not_le.mp hb)]
    rfl

/-! ## The whole string -/

/-- So the loop is never left early. -/
theorem urlescape_eq_flatMap (str : Bytes) : urlescape str = str.flatMap escaped := by
  induction str with
  | nil => rfl
  | cons b str ih =>
    rw [urlescape, List.flatMap_cons, escaped, ih]
    split
    · rename_i hunsafe
      rw [if_neg (by rw [length_urlescapeTmp hunsafe]; decide)]
    · rfl

/-- A byte of a URL that breaks out of nothing. -/
def Harmless (b : UInt8) : Prop := b ≠ 32 ∧ iscntrl b = false ∧ b ≠ 34 ∧ b ≠ 39 ∧ b ≠ 92

theorem harmless_of_not_unsafe (h : urlUnsafe b = false) : Harmless b := by
  simp only [urlUnsafe, isspace, Bool.or_eq_false_iff, beq_eq_false_iff_ne] at h
  obtain ⟨⟨⟨⟨hcntrl, hblank, -⟩, hapos⟩, hquote⟩, hback⟩ := h
  exact ⟨hblank, hcntrl, hquote, hapos, hback⟩

theorem harmless_escaped (hb : 16 ≤ b) : ∀ a ∈ escaped b, Harmless a := by
  have hhex : ∀ d < 16, Harmless (hexChar d) := by
    unfold Harmless
    decide
  have hlt := b.toNat_lt
  intro a ha
  rw [escaped] at ha
  split at ha
  · rename_i hunsafe
    rw [urlescapeTmp_of_le hunsafe hb] at ha
    simp only [List.mem_cons, List.not_mem_nil, or_false] at ha
    rcases ha with rfl | rfl | rfl
    · unfold Harmless
      decide
    · exact hhex _ (by omega)
    · exact hhex _ (by omega)
  · rename_i hsafe
    rw [List.mem_singleton.mp ha]
    exact harmless_of_not_unsafe (by simpa using hsafe)

/-! ## Decoding -/

theorem hexVal_of_urlUnsafe (h : urlUnsafe b = true) : hexVal b = none := by
  simp only [urlUnsafe, iscntrl, isspace, Bool.or_eq_true, Bool.and_eq_true, decide_eq_true_eq,
    beq_iff_eq] at h
  have hlow {b : UInt8} (h : b < 32) : hexVal b = none := by
    have h48 : ¬ 48 ≤ b := UInt8.not_le.mpr (UInt8.lt_trans h (by decide))
    have h65 : ¬ 65 ≤ b := UInt8.not_le.mpr (UInt8.lt_trans h (by decide))
    have h97 : ¬ 97 ≤ b := UInt8.not_le.mpr (UInt8.lt_trans h (by decide))
    simp [hexVal, h48, h65, h97]
  rcases h with ((((h | rfl) | rfl | h) | rfl) | rfl) | rfl
  · exact hlow h
  · decide
  · decide
  · exact hlow (UInt8.lt_of_le_of_lt h.2 (by decide))
  all_goals decide

/-- A byte that is escaped is read back; any other byte is itself. -/
theorem percentDecode_escaped (hb : 16 ≤ b) (h37 : b ≠ 37) (s : Bytes) :
    percentDecode (escaped b ++ s) = b :: percentDecode s := by
  have hlt := b.toNat_lt
  rw [escaped]
  split
  · rename_i hunsafe
    rw [urlescapeTmp_of_le hunsafe hb, List.cons_append, List.cons_append, List.cons_append,
      List.nil_append, percentDecode, hexVal_hexChar _ (by omega), hexVal_hexChar _ (by omega)]
    dsimp only
    rw [Nat.div_add_mod, UInt8.ofNat_toNat]
  · exact percentDecode_cons h37 s

/-- The first byte of an escape is no digit, unless the byte was one. -/
theorem escaped_head (b : UInt8) :
    ∃ a r, escaped b = a :: r ∧ (hexVal a = none ∨ a = b ∧ r = []) := by
  have h37 : hexVal 37 = none := by decide
  rw [escaped]
  split
  · rename_i hunsafe
    exact ⟨37, fmtHex2 b.toNat, urlescapeTmp_of_urlUnsafe hunsafe, .inl h37⟩
  · exact ⟨b, [], rfl, .inr ⟨rfl, rfl⟩⟩

/-- A `%` that starts no escape starts none after escaping. -/
theorem percentDecode_percent_escaped {s : Bytes}
    (hs : ∀ h l s', s = h :: l :: s' → hexVal h = none ∨ hexVal l = none) :
    percentDecode (37 :: s.flatMap escaped) = 37 :: percentDecode (s.flatMap escaped) := by
  have hpass {t : Bytes} (ht : ∀ h l t', t = h :: l :: t' → hexVal h = none ∨ hexVal l = none) :
      percentDecode (37 :: t) = 37 :: percentDecode t := by
    rcases t with _ | ⟨h, _ | ⟨l, t⟩⟩
    · rfl
    · rfl
    · exact percentDecode_percent (ht h l t rfl) t
  refine hpass fun h l t ht => ?_
  rcases s with _ | ⟨x, s⟩
  · cases ht
  obtain ⟨a, r, hx, ha⟩ := escaped_head x
  rw [List.flatMap_cons, hx, List.cons_append] at ht
  injection ht with hah hrest
  rcases ha with ha | ⟨rfl, rfl⟩
  · exact .inl (hah ▸ ha)
  -- the first byte is the string's own, and the second one starts what the next byte became
  rcases s with _ | ⟨y, s⟩
  · cases hrest
  obtain ⟨b, r', hy, hb⟩ := escaped_head y
  rw [List.flatMap_cons, hy] at hrest
  injection hrest with hbl
  rcases hb with hb | ⟨rfl, rfl⟩
  · exact .inr (hbl ▸ hb)
  · rw [← hah, ← hbl]
    exact hs a b s rfl

/-- A byte that starts no escape decodes to itself, before and after. -/
theorem percentDecode_cons_escaped {s : Bytes} (hb : 16 ≤ b)
    (hs : b = 37 → ∀ h l s', s = h :: l :: s' → hexVal h = none ∨ hexVal l = none) :
    percentDecode (escaped b ++ s.flatMap escaped) = b :: percentDecode (s.flatMap escaped) := by
  have hpercent : escaped 37 = [37] := by decide
  by_cases h37 : b = 37
  · rw [h37, hpercent, List.singleton_append]
    exact percentDecode_percent_escaped (hs h37)
  · exact percentDecode_escaped hb h37 _

/-- **Escaping changes nothing for a reader that decodes.** -/
theorem percentDecode_flatMap_escaped (s : Bytes) (hs : ∀ b ∈ s, 16 ≤ b) :
    percentDecode (s.flatMap escaped) = percentDecode s := by
  have hpercent : escaped 37 = [37] := by decide
  -- a digit is passed through
  have hdigit {h : UInt8} {a : Nat} (ha : hexVal h = some a) : escaped h = [h] := by
    rw [escaped, if_neg]
    intro hunsafe
    rw [hexVal_of_urlUnsafe hunsafe] at ha
    cases ha
  fun_induction percentDecode s with
  | case1 h l s a b ha hb ih =>
    rw [List.flatMap_cons, List.flatMap_cons, List.flatMap_cons, hpercent, hdigit ha, hdigit hb,
      ← ih fun c hc => hs c (by simp [hc])]
    simp only [List.singleton_append, percentDecode, ha, hb]
  | case2 h l s hno ih =>
    have hno' : ∀ h' l' s', h :: l :: s = h' :: l' :: s' → hexVal h' = none ∨ hexVal l' = none := by
      rintro h' l' s' heq
      injection heq with h1 heq
      injection heq with h2 _
      subst h1
      subst h2
      by_contra hboth
      rw [not_or] at hboth
      obtain ⟨a, ha⟩ := Option.ne_none_iff_exists'.mp hboth.1
      obtain ⟨b, hb⟩ := Option.ne_none_iff_exists'.mp hboth.2
      exact hno a b ha hb
    rw [List.flatMap_cons, percentDecode_cons_escaped (by decide) (fun _ => hno'),
      ih fun c hc => hs c (List.mem_cons_of_mem _ hc)]
  | case3 b s hb ih =>
    have hno : b = 37 → ∀ h l s', s = h :: l :: s' → hexVal h = none ∨ hexVal l = none :=
      fun h37 h l s' heq => absurd heq (hb h l s' h37)
    rw [List.flatMap_cons, percentDecode_cons_escaped (hs b List.mem_cons_self) hno,
      ih fun c hc => hs c (List.mem_cons_of_mem _ hc)]
  | case4 => rfl

/-! ## Through the buffer -/

/-- A callback that keeps what it is given. -/
def collect (d : Bytes) : Prog Bytes Unit := fun acc => (some (), acc ++ d)

/-- What `tp_urlescape` returns on a new template of `cap` bytes, and what it wrote: the blocks
handed to the callback and the bytes that are pending. -/
def urlescaped (cap : Nat) (hcap : 0 < cap) (s : Bytes) : Option Unit × Bytes :=
  let r := tpUrlescape collect s (template cap hcap, [])
  (r.1, r.2.2 ++ r.2.1.tpBuf)

theorem urlescaped_eq (cap : Nat) (hcap : 0 < cap) (s : Bytes) :
    urlescaped cap hcap s = (some (), s.flatMap escaped) := by
  have hcollect : Hands fun acc text (r : Option Unit × Bytes) => r = (some (), acc ++ text) :=
    { nil := fun acc => by rw [List.append_nil]
      append := fun h h' => by
        cases h
        rw [h', List.append_assoc]
      cut := fun h => by cases h }
  obtain ⟨hrun, hdone⟩ := @tpWrite_hands _ collect _ hcollect (fun _ _ => rfl) (urlescape s)
    (template cap hcap) []
  obtain ⟨hret, hout⟩ := Prod.mk.inj hrun
  rw [urlescaped, tpUrlescape_eq_tpWrite, ← urlescape_eq_flatMap, hret, hout, (hdone hret).1]
  exact congrArg (Prod.mk _) (spill_append cap [] (urlescape s))

/-- The escaper has done its work: it returned 0, what it wrote breaks out of nothing and has
a piece for every byte of the string, and decoding does not see that it was there. -/
structure Lossless (r : Option Unit × Bytes) (s : Bytes) : Prop where
  returned : r.1 = some ()
  safe : ∀ b ∈ r.2, Harmless b
  whole : r.2 = s.flatMap escaped ∧ ∀ b ∈ s, escaped b ≠ []
  decodes : percentDecode r.2 = percentDecode s

/-- **`tp_urlescape` is lossless and safe exactly on the strings without the bytes 1 to 15** (a
C string has no 0). -/
theorem urlescape_lossless_iff (cap : Nat) (hcap : 0 < cap) (s : Bytes) :
    Lossless (urlescaped cap hcap s) s ↔ ∀ b ∈ s, 16 ≤ b := by
  rw [urlescaped_eq]
  constructor
  · intro h b hb
    by_contra hlt
    have hlt : b < 16 := UInt8.not_le.mp hlt
    -- the blank of the padding
    refine (h.safe 32 (List.mem_flatMap.mpr ⟨b, hb, ?_⟩)).1 rfl
    rw [escaped, if_pos (urlUnsafe_of_lt hlt), urlescapeTmp_of_lt hlt]
    simp
  · intro hs
    refine ⟨rfl, ?_, ⟨rfl, ?_⟩, percentDecode_flatMap_escaped s hs⟩
    · intro a ha
      obtain ⟨b, hb, ha⟩ := List.mem_flatMap.mp ha
      exact harmless_escaped (hs b hb) a ha
    · intro b _ hnil
      obtain ⟨a, r, heq, -⟩ := escaped_head b
      rw [heq] at hnil
      cases hnil

/-- A tab becomes `% 9`, with the very blank that should not be there. -/
theorem padded_tab_not_lossless :
    (urlescaped 8 (by decide) (lit "a\tb")).2 = lit "a% 9b" ∧
      ¬ Lossless (urlescaped 8 (by decide) (lit "a\tb")) (lit "a\tb") := by
  refine ⟨by decide, fun h => ?_⟩
  exact (h.safe 32 (by decide)).1 rfl

theorem quoted_text_lossless :
    Lossless (urlescaped 1 (by decide) (lit "a \"b%20\\")) (lit "a \"b%20\\") :=
  (urlescape_lossless_iff 1 (by decide) _).mpr (List.forall_iff_forall_mem.mp (by decide))

end Galileo
