import Galileo.Model.Params

/-!
# The parameter parser

Two things about `fcgi_parse_params`. It writes the fields a request is described by and nothing
else; of these only the method matters to the connection, and it can be learnt but not forgotten
(`Learnt`). And it takes from the buffer the bytes of the record — unless the record has a pair it
**counts wrongly** (`Defect`), in which case it takes more: `fcgiParseParams_framed` and
`fcgiParseParams_overrun` are the two halves of that.
-/

set_option autoImplicit false

namespace Galileo

open Lib

variable {content : Bytes} {env : Env} {n : Nat}

/-! ## The client -/

/-- `d` is `c` with parameters filled in. -/
structure Client.Learnt (c d : Client) : Prop where
  id : d.cltId = c.cltId
  serial : d.serial = c.serial
  pc : d.cltPc = c.cltPc
  method : d.cltMethod = c.cltMethod ∨ d.cltMethod ≠ .unknown

theorem Client.Learnt.refl (c : Client) : c.Learnt c := ⟨rfl, rfl, rfl, .inl rfl⟩

theorem Client.Learnt.trans {c d e : Client} (hcd : c.Learnt d) (hde : d.Learnt e) :
    c.Learnt e := by
  refine ⟨hde.id.trans hcd.id, hde.serial.trans hcd.serial, hde.pc.trans hcd.pc, ?_⟩
  rcases hde.method with h | h
  · exact hcd.method.imp (h.trans ·) (h ▸ ·)
  · exact .inr h

theorem paramStore_learnt {pname : Bytes} {vlen : Nat} {put : Bytes → Client → Client}
    (h : paramStore env pname vlen = some put) (v : Bytes) (c : Client) : c.Learnt (put v c) := by
  unfold paramStore at h
  split at h
  · cases h
    exact ⟨rfl, rfl, rfl, .inl rfl⟩
  split at h
  · cases h
    exact ⟨rfl, rfl, rfl, .inl rfl⟩
  split at h
  · cases h
    exact ⟨rfl, rfl, rfl, .inl rfl⟩
  split at h
  · cases h
    exact ⟨rfl, rfl, rfl, .inl rfl⟩
  split at h
  · cases h
    refine ⟨rfl, rfl, rfl, ?_⟩
    dsimp only
    split
    · exact .inr (by simp)
    · split
      · exact .inr (by simp)
      · exact .inl rfl
  · exact absurd h (by simp)

/-! What holds between a client and what the parser makes of it: enough that storing one value
does it. -/

section Stored

variable {R : Client → Client → Prop} (env : Env) (hrefl : ∀ c, R c c)
  (htrans : ∀ c d e, R c d → R d e → R c e)
  (hput : ∀ pname vlen put v c, paramStore env pname vlen = some put → R c (put v c))

include hrefl hput

theorem paramStep_stored (s : ParamSt) : R s.clt (paramStep env s).2.clt := by
  unfold paramStep
  dsimp only
  split
  · exact hrefl _
  split
  · exact hrefl _
  split
  · exact hrefl _
  split
  · exact hrefl _
  split
  · exact hput _ _ _ _ _ ‹_›
  · exact hrefl _

include htrans

theorem fcgiParseParams_stored (s : ParamSt) : R s.clt (fcgiParseParams env s).2.clt := by
  rw [fcgiParseParams]
  induction s.src.length + 2 ^ 31 generalizing s with
  | zero => exact hrefl _
  | succ n ih =>
    rw [paramLoop]
    split
    · exact hrefl _
    · have hstep := paramStep_stored env hrefl hput s
      rcases hs : paramStep env s with ⟨_ | _, t⟩ <;> rw [hs] at hstep
      · exact hstep
      · exact htrans _ _ _ hstep (ih t)

end Stored

theorem fcgiParseParams_learnt (env : Env) (s : ParamSt) :
    s.clt.Learnt (fcgiParseParams env s).2.clt :=
  fcgiParseParams_stored env .refl (fun _ _ _ => .trans)
    (fun _ _ _ v c h => paramStore_learnt h v c) s

/-! ## Numbers -/

theorem int32_eq (x : Int) :
    int32 x = if x % 4294967296 < 2147483648 then x % 4294967296
      else x % 4294967296 - 4294967296 := rfl

/-- A sum that fits is not wrapped. -/
theorem int32_of_lt {x : Int} (h0 : 0 ≤ x) (h : x < 2147483648) : int32 x = x := by
  rw [int32_eq, Int.emod_eq_of_lt h0 (by omega), if_pos h]

theorem int32_lt (x : Int) : int32 x < 2147483648 := by
  rw [int32_eq]
  split <;> omega

theorem sizeT_natCast (h : n < 2 ^ 64) : sizeT n = n := by
  rw [sizeT]
  omega

/-! ## Lengths -/

/-- A length is at most 31 bits long, and takes one byte or four. -/
theorem parseLen_cases (toread : Int) (src : Bytes) :
    (parseLen toread src).len = -1 ∨
    ∃ k : Nat, (k = 1 ∨ k = 4 ∧ 4 ≤ toread) ∧ 0 ≤ (parseLen toread src).len ∧
      (parseLen toread src).len < 2147483648 ∧ (parseLen toread src).toread = toread - k ∧
      (parseLen toread src).src = src.drop k := by
  unfold parseLen
  dsimp only
  split
  · rename_i hc
    refine .inr ⟨1, .inl rfl, Int.natCast_nonneg _, ?_, rfl, rfl⟩
    have := (src.headD 0).toNat_lt
    show ((src.headD 0).toNat : Int) < _
    omega
  split
  · exact .inl rfl
  · refine .inr ⟨4, .inr ⟨rfl, by omega⟩, Int.natCast_nonneg _, ?_, by
      show toread - 1 - 3 = toread - (4 : Nat)
      omega, by simp⟩
    show ((_ : Nat) : Int) < _
    have h0 := ((src.drop 1).headD 0).toNat_lt
    have h1 := (((src.drop 1).drop 1).headD 0).toNat_lt
    have h2 := (((src.drop 1).drop 2).headD 0).toNat_lt
    have hc : (src.headD 0).toNat &&& 0x7F < 2 ^ 7 := Nat.and_lt_two_pow _ (by decide)
    have hlt : ((src.headD 0).toNat &&& 0x7F) <<< 24 ||| ((src.drop 1).headD 0).toNat <<< 16
        ||| (((src.drop 1).drop 1).headD 0).toNat <<< 8
        ||| (((src.drop 1).drop 2).headD 0).toNat < 2 ^ 31 := by
      refine Nat.or_lt_two_pow (Nat.or_lt_two_pow (Nat.or_lt_two_pow ?_ ?_) ?_) ?_
      all_goals (try rw [Nat.shiftLeft_eq])
      all_goals omega
    generalize ((src.headD 0).toNat &&& 0x7F) <<< 24 ||| ((src.drop 1).headD 0).toNat <<< 16
        ||| (((src.drop 1).drop 1).headD 0).toNat <<< 8
        ||| (((src.drop 1).drop 2).headD 0).toNat = x at hlt ⊢
    omega

/-- As long as there is something to read, a length is read from it. -/
theorem parseLen_append {src : Bytes} (h : src ≠ []) (t : Bytes) :
    parseLen src.length (src ++ t) = ⟨(parseLen src.length src).len,
      (parseLen src.length src).toread, (parseLen src.length src).src ++ t⟩ := by
  cases src with
  | nil => exact absurd rfl h
  | cons b src =>
    simp only [parseLen, List.cons_append, List.headD_cons, List.drop_succ_cons, List.drop_zero]
    split
    · rfl
    split
    · rfl
    · rename_i hlen
      match src with
      | b0 :: b1 :: b2 :: src => rfl
      | [] | [_] | [_, _] => simp at hlen

/-- With nothing to read, the count is below zero afterwards. -/
theorem parseLen_zero (src : Bytes) :
    (parseLen 0 src).len = -1 ∨ (parseLen 0 src).len < 128 ∧ (parseLen 0 src).toread = -1 := by
  unfold parseLen
  dsimp only
  split
  · rename_i hc
    refine .inr ⟨?_, rfl⟩
    show ((src.headD 0).toNat : Int) < _
    rw [Nat.shiftRight_eq_div_pow] at hc
    omega
  · exact .inl rfl

/-! ## One pair -/

section Pair

variable {s : ParamSt} {n v : LenRes}

/-- What a pair whose name fits does to the client. -/
def pairClient (env : Env) (nlen vlen : Int) (src : Bytes) (c : Client) : Client :=
  match paramStore env (cstr (evbufferRemove nlen.toNat src).1) vlen.toNat with
  | some put => put (evbufferRemove vlen.toNat (evbufferRemove nlen.toNat src).2).1 c
  | none => c

/-- The parser gives up. -/
def Rejects (n v : LenRes) : Prop :=
  n.len < 0 ∨ v.len < 0 ∨ v.toread < int32 (n.len + v.len)

theorem paramStep_rejects (hn : parseLen s.toread s.src = n) (hv : parseLen n.toread n.src = v)
    (h : Rejects n v) : (paramStep env s).1 = false := by
  subst hn hv
  rw [paramStep]
  dsimp only
  split
  · rfl
  split
  · rfl
  split
  · rfl
  · rename_i h₁ h₂ h₃
    rcases h with h | h | h
    exacts [absurd h h₁, absurd h h₂, absurd h h₃]

/-- "Ignore this parameter." -/
theorem paramStep_ignored (hn : parseLen s.toread s.src = n) (hv : parseLen n.toread n.src = v)
    (h : ¬ Rejects n v) (hlong : 31 < n.len) :
    paramStep env s = (true, ⟨int32 (v.toread - (n.len - v.len)),
      evbufferDrain (sizeT (int32 (n.len + v.len))) v.src, s.clt⟩) := by
  subst hn hv
  simp only [Rejects, not_or] at h
  rw [paramStep]
  dsimp only
  rw [if_neg h.1, if_neg h.2.1, if_neg h.2.2, if_pos hlong]

theorem paramStep_taken (hn : parseLen s.toread s.src = n) (hv : parseLen n.toread n.src = v)
    (h : ¬ Rejects n v) (hshort : ¬ 31 < n.len) :
    paramStep env s = (true, ⟨int32 (v.toread - n.len - v.len),
      (v.src.drop n.len.toNat).drop v.len.toNat, pairClient env n.len v.len v.src s.clt⟩) := by
  subst hn hv
  simp only [Rejects, not_or] at h
  rw [paramStep]
  dsimp only
  rw [if_neg h.1, if_neg h.2.1, if_neg h.2.2, if_neg hshort, pairClient]
  generalize paramStore env _ _ = put
  cases put <;> rfl

end Pair

/-! ## Where the count and the buffer part ways

`fcg_toread` counts how much of the record is left, and the buffer holds the record and what
follows it. The two agree until the parser meets a pair it counts wrongly. -/

/-- The pair the parser is at passes its check and is counted wrongly: its lengths overflow an
`int`, or its name is too long for `pname` and it has a value. -/
def Defect (n v : LenRes) : Prop :=
  ¬ Rejects n v ∧ (2147483648 ≤ n.len + v.len ∨ 31 < n.len ∧ 0 < v.len)

instance (n v : LenRes) : Decidable (Rejects n v) := inferInstanceAs (Decidable (_ ∨ _))

instance (n v : LenRes) : Decidable (Defect n v) := inferInstanceAs (Decidable (_ ∧ _))

def ParamSt.Defect (s : ParamSt) : Prop :=
  Galileo.Defect (parseLen s.toread s.src)
    (parseLen (parseLen s.toread s.src).toread (parseLen s.toread s.src).src)

instance (s : ParamSt) : Decidable s.Defect := inferInstanceAs (Decidable (Galileo.Defect _ _))

/-- Such a pair is met. The rounds before it take at least two bytes each. -/
def overrun (env : Env) : Nat → ParamSt → Bool
  | 0, _ => false
  | n + 1, s =>
      decide (0 < s.toread) && (decide s.Defect ||
        match paramStep env s with
        | (true, s') => overrun env n s'
        | (false, _) => false)

def ParamSt.overruns (env : Env) (s : ParamSt) : Bool := overrun env s.toread.toNat s

/-- Of a pair that lies in the record, nothing is read that lies behind it. -/
theorem pairClient_append (env : Env) {nlen vlen : Int} {src : Bytes}
    (h : nlen.toNat + vlen.toNat ≤ src.length) (t : Bytes) (c : Client) :
    pairClient env nlen vlen (src ++ t) c = pairClient env nlen vlen src c := by
  have hn : nlen.toNat ≤ src.length := by omega
  have hv : vlen.toNat ≤ (src.drop nlen.toNat).length := by
    rw [List.length_drop]
    omega
  simp only [pairClient, evbufferRemove, List.append_assoc, List.take_append_of_le_length hn,
    List.drop_append_of_le_length hn, List.take_append_of_le_length hv]

/-- The two lengths of a pair, read from a record with something behind it: they are read from
the record, unless it ends after the first. -/
theorem parseLen_pair (hne : content ≠ []) (t : Bytes) :
    (parseLen content.length (content ++ t)).len = -1 ∧ (parseLen content.length content).len = -1 ∨
    ∃ (nlen : Int) (content₁ : Bytes), 0 ≤ nlen ∧ nlen < 2147483648 ∧
      content₁.length < content.length ∧
      parseLen content.length (content ++ t) = ⟨nlen, content₁.length, content₁ ++ t⟩ ∧
      parseLen content.length content = ⟨nlen, content₁.length, content₁⟩ := by
  have hcases := parseLen_cases content.length content
  rw [parseLen_append hne t]
  generalize parseLen content.length content = n at hcases ⊢
  obtain ⟨nlen, toread, src⟩ := n
  dsimp only at hcases ⊢
  rcases hcases with h | ⟨k, hk, h0, hlt, rfl, rfl⟩
  · exact .inl ⟨h, h⟩
  · have hkle : 0 < k ∧ k ≤ content.length := by
      rcases hk with rfl | ⟨rfl, hk⟩
      · exact ⟨by decide, List.length_pos_iff.mpr hne⟩
      · exact ⟨by decide, by omega⟩
    have htr : (content.length : Int) - k = (content.drop k).length := by
      rw [List.length_drop]
      omega
    refine .inr ⟨nlen, content.drop k, h0, hlt, ?_, ?_, ?_⟩
    · rw [List.length_drop]
      omega
    · rw [htr]
    · rw [htr]

theorem int32_add {a b : Int} (ha : 0 ≤ a) (hb : 0 ≤ b) (h : ¬ 2147483648 ≤ a + b) :
    int32 (a + b) = a + b := int32_of_lt (by omega) (by omega)

/-- A record that ends after the length of a name is rejected, or that length overflows together
with what stands behind the record. -/
theorem rejects_of_nil {nlen : Int} (h0 : 0 ≤ nlen) (hlt : nlen < 2147483648) {toread : Int}
    {src t : Bytes} (hd : ¬ Defect ⟨nlen, toread, src⟩ (parseLen 0 t)) :
    Rejects ⟨nlen, toread, src⟩ (parseLen 0 t) := by
  by_contra hacc
  have hacc' := hacc
  simp only [Rejects, not_or, Int.not_lt] at hacc'
  obtain ⟨-, hv0, hle⟩ := hacc'
  rcases parseLen_zero t with hneg | ⟨hv, htr⟩
  · omega
  · have hfit : ¬ 2147483648 ≤ nlen + (parseLen 0 t).len := fun hover =>
      hd ⟨hacc, .inl hover⟩
    rw [htr, int32_add h0 hv0 hfit] at hle
    omega

/-- A pair that is counted right is taken from the record alone: whatever stands behind the
record is as if it were not there. -/
theorem paramStep_append (env : Env) (hne : content ≠ []) (hlen : content.length ≤ 65535)
    (t : Bytes) (c : Client) (hd : ¬ (ParamSt.mk content.length (content ++ t) c).Defect) :
    ((paramStep env ⟨content.length, content ++ t, c⟩).1 = false ∧
      (paramStep env ⟨content.length, content, c⟩).1 = false) ∨
    ∃ (content' : Bytes) (c' : Client), content'.length < content.length ∧
      paramStep env ⟨content.length, content ++ t, c⟩
        = (true, ⟨content'.length, content' ++ t, c'⟩) ∧
      paramStep env ⟨content.length, content, c⟩ = (true, ⟨content'.length, content', c'⟩) := by
  rw [ParamSt.Defect] at hd
  dsimp only at hd
  rcases parseLen_pair hne t with ⟨hn, hn'⟩ | ⟨nlen, content₁, hn0, hnlt, hless, hn, hn'⟩
  · exact .inl ⟨paramStep_rejects rfl rfl (.inl (by rw [hn]; decide)),
      paramStep_rejects rfl rfl (.inl (by rw [hn']; decide))⟩
  rw [hn] at hd
  by_cases hne₁ : content₁ = []
  · subst hne₁
    refine .inl
      ⟨paramStep_rejects (s := ⟨content.length, content ++ t, c⟩) hn rfl
        (rejects_of_nil hn0 hnlt hd),
      paramStep_rejects (s := ⟨content.length, content, c⟩) hn' rfl (rejects_of_nil hn0 hnlt ?_)⟩
    rintro ⟨hacc, -⟩
    refine hacc (.inr (.inr ?_))
    have hzero : parseLen 0 [] = ⟨0, -1, []⟩ := rfl
    dsimp only
    rw [hzero]
    dsimp only
    rw [Int.add_zero, int32_of_lt hn0 hnlt]
    omega
  rcases parseLen_pair hne₁ t with ⟨hv, hv'⟩ | ⟨vlen, content₂, hv0, hvlt, hless₂, hv, hv'⟩
  · exact .inl
      ⟨paramStep_rejects (s := ⟨content.length, content ++ t, c⟩) hn rfl
        (.inr (.inl (by rw [hv]; decide))),
      paramStep_rejects (s := ⟨content.length, content, c⟩) hn' rfl
        (.inr (.inl (by rw [hv']; decide)))⟩
  dsimp only at hd
  rw [hv] at hd
  by_cases hrej : content₂.length < int32 (nlen + vlen)
  · exact .inl ⟨paramStep_rejects (s := ⟨content.length, content ++ t, c⟩) hn hv (.inr (.inr hrej)),
      paramStep_rejects (s := ⟨content.length, content, c⟩) hn' hv' (.inr (.inr hrej))⟩
  have hacc : ∀ src src' : Bytes,
      ¬ Rejects ⟨nlen, content₁.length, src⟩ ⟨vlen, content₂.length, src'⟩ := by
    intro src src' h
    rcases h with h | h | h
    exacts [Int.not_lt.mpr hn0 h, Int.not_lt.mpr hv0 h, hrej h]
  simp only [Defect, hacc, not_false_eq_true, true_and, not_or] at hd
  obtain ⟨hfit, hlong⟩ := hd
  have hsum := int32_add hn0 hv0 hfit
  rw [hsum] at hrej
  have hin : nlen.toNat + vlen.toNat ≤ content₂.length := by omega
  by_cases hl : 31 < nlen
  · have hzero : vlen = 0 := by
      have : ¬ 0 < vlen := fun h => hlong ⟨hl, h⟩
      omega
    have hsize : sizeT (int32 (nlen + vlen)) = nlen.toNat := by
      rw [hsum, sizeT]
      omega
    have hcount : int32 (content₂.length - (nlen - vlen)) = (content₂.drop nlen.toNat).length := by
      have hpos : 0 ≤ (content₂.length : Int) - (nlen - vlen) := by omega
      have hmax : (content₂.length : Int) - (nlen - vlen) < 2147483648 := by omega
      rw [int32_of_lt hpos hmax, List.length_drop]
      omega
    refine .inr ⟨content₂.drop nlen.toNat, c, ?_, ?_, ?_⟩
    · rw [List.length_drop]
      omega
    · rw [paramStep_ignored (s := ⟨content.length, content ++ t, c⟩) hn hv (hacc _ _) hl]
      dsimp only
      rw [hsize, hcount, evbufferDrain, List.drop_append_of_le_length (by omega)]
    · rw [paramStep_ignored (s := ⟨content.length, content, c⟩) hn' hv' (hacc _ _) hl]
      dsimp only
      rw [hsize, hcount, evbufferDrain]
  · have hcount : int32 (content₂.length - nlen - vlen)
        = ((content₂.drop nlen.toNat).drop vlen.toNat).length := by
      have hpos : 0 ≤ (content₂.length : Int) - nlen - vlen := by omega
      have hmax : (content₂.length : Int) - nlen - vlen < 2147483648 := by omega
      rw [int32_of_lt hpos hmax, List.length_drop, List.length_drop]
      omega
    refine .inr ⟨(content₂.drop nlen.toNat).drop vlen.toNat,
      pairClient env nlen vlen content₂ c, ?_, ?_, ?_⟩
    · simp only [List.length_drop]
      omega
    · rw [paramStep_taken (s := ⟨content.length, content ++ t, c⟩) hn hv (hacc _ _) hl]
      dsimp only
      rw [hcount, pairClient_append env hin, List.drop_append_of_le_length (by omega),
        List.drop_append_of_le_length (by rw [List.length_drop]; omega)]
    · rw [paramStep_taken (s := ⟨content.length, content, c⟩) hn' hv' (hacc _ _) hl]
      dsimp only
      rw [hcount]

/-- **Parameters that are counted right** are taken from the record alone, and nothing but the
record is taken. -/
theorem paramLoop_append (env : Env) (t : Bytes) {m : Nat} {c : Client} {n n' : Nat}
    (hlen : content.length ≤ 65535) (hm : content.length ≤ m) (hn : content.length < n)
    (hn' : content.length < n') (hover : overrun env m ⟨content.length, content ++ t, c⟩ = false) :
    ((paramLoop env n ⟨content.length, content ++ t, c⟩).1 = false ∧
      (paramLoop env n' ⟨content.length, content, c⟩).1 = false) ∨
    ∃ c', paramLoop env n ⟨content.length, content ++ t, c⟩ = (true, ⟨0, t, c'⟩) ∧
      paramLoop env n' ⟨content.length, content, c⟩ = (true, ⟨0, [], c'⟩) := by
  induction m generalizing content c n n' with
  | zero =>
    obtain rfl := List.length_eq_zero_iff.mp (Nat.le_zero.mp hm)
    obtain ⟨n, rfl⟩ := Nat.exists_eq_add_of_lt hn
    obtain ⟨n', rfl⟩ := Nat.exists_eq_add_of_lt hn'
    exact .inr ⟨c, rfl, rfl⟩
  | succ m ih =>
    cases n with
    | zero => exact absurd hn (Nat.not_lt_zero _)
    | succ n =>
      cases n' with
      | zero => exact absurd hn' (Nat.not_lt_zero _)
      | succ n' =>
        by_cases hne : content = []
        · subst hne
          exact .inr ⟨c, rfl, rfl⟩
        · have hpos : ¬ (content.length : Int) ≤ 0 := by
            have := List.length_pos_iff.mpr hne
            omega
          have hpos' : (0 : Int) < content.length := by omega
          simp only [overrun, hpos', decide_true, Bool.true_and, Bool.or_eq_false_iff,
            decide_eq_false_iff_not] at hover
          simp only [paramLoop, hpos, if_false]
          rcases paramStep_append env hne hlen t c hover.1 with
            ⟨hs, hs'⟩ | ⟨content', c', hless, hs, hs'⟩
          · generalize paramStep env ⟨content.length, content ++ t, c⟩ = r at hs
            generalize paramStep env ⟨content.length, content, c⟩ = r' at hs'
            obtain ⟨_ | _, r⟩ := r
            · obtain ⟨_ | _, r'⟩ := r'
              · exact .inl ⟨rfl, rfl⟩
              · exact absurd hs' (by simp)
            · exact absurd hs (by simp)
          · rw [hs, hs']
            rw [hs] at hover
            exact ih (by omega) (by omega) (by omega) (by omega) hover.2

/-! ## Behind the record -/

/-- What a round that goes well has read. -/
theorem paramStep_shape {s s' : ParamSt} (h : paramStep env s = (true, s')) :
    ∃ (k : Nat) (nlen vlen : Int), 2 ≤ k ∧ 0 ≤ nlen ∧ nlen < 2147483648 ∧ 0 ≤ vlen ∧
      vlen < 2147483648 ∧ int32 (nlen + vlen) ≤ s.toread - k ∧
      (s.Defect → 2147483648 ≤ nlen + vlen ∨ 31 < nlen ∧ 0 < vlen) ∧
      (31 < nlen ∧ s'.toread = int32 (s.toread - k - (nlen - vlen)) ∧
          s'.src = s.src.drop (k + sizeT (int32 (nlen + vlen))) ∨
        nlen ≤ 31 ∧ s'.toread = int32 (s.toread - k - nlen - vlen) ∧
          s'.src = s.src.drop (k + (nlen.toNat + vlen.toNat))) := by
  have hncases := parseLen_cases s.toread s.src
  rw [ParamSt.Defect]
  generalize hn : parseLen s.toread s.src = n at hncases ⊢
  have hvcases := parseLen_cases n.toread n.src
  generalize hv : parseLen n.toread n.src = v at hvcases ⊢
  by_cases hrej : Rejects n v
  · have hfalse : (paramStep env s).1 = false := paramStep_rejects hn hv hrej
    rw [h] at hfalse
    cases hfalse
  · have hacc := hrej
    simp only [Rejects, not_or, Int.not_lt] at hacc
    obtain ⟨hn0, hv0, hle⟩ := hacc
    rcases hncases with hneg | ⟨k₁, hk₁, -, hnlt, hntr, hnsrc⟩
    · omega
    rcases hvcases with hneg | ⟨k₂, hk₂, -, hvlt, hvtr, hvsrc⟩
    · omega
    have htr : v.toread = s.toread - (k₁ + k₂ : Nat) := by omega
    have hsrc : v.src = s.src.drop (k₁ + k₂) := by rw [hvsrc, hnsrc, List.drop_drop]
    rw [htr] at hle
    refine ⟨k₁ + k₂, n.len, v.len, by omega, hn0, hnlt, hv0, hvlt, hle, fun hd => hd.2, ?_⟩
    by_cases hl : 31 < n.len
    · rw [paramStep_ignored hn hv hrej hl, htr, hsrc] at h
      cases h
      exact .inl ⟨hl, rfl, by simp only [evbufferDrain, List.drop_drop]⟩
    · rw [paramStep_taken hn hv hrej hl, htr, hsrc] at h
      cases h
      exact .inr ⟨by omega, rfl, by simp only [List.drop_drop, Nat.add_assoc]⟩

/-- With `r` bytes in the record and `t` behind it, the parser is about to read, or has read, more
than the record. -/
def Behind (r t : Nat) (s : ParamSt) : Prop :=
  s.src.length < t ∨ s.src = [] ∨
    (s.src.length : Int) - t < s.toread ∧ s.toread + (s.src.length - t) ≤ 2 * r

/-- A wrong count leads behind the record, and from there no round leads back. -/
theorem behind_step {r t : Nat} (hr : r ≤ 65535) {s s' : ParamSt} (hpos : 0 < s.toread)
    (hs : Behind r t s ∨ s.Defect ∧ (s.src.length : Int) - t = s.toread ∧ s.toread ≤ r)
    (h : paramStep env s = (true, s')) : Behind r t s' := by
  obtain ⟨k, nlen, vlen, hk, hn0, hnlt, hv0, hvlt, hle, hd, hshape⟩ := paramStep_shape h
  obtain ⟨j, hj⟩ : ∃ j, s'.src = s.src.drop j := by
    rcases hshape with ⟨-, -, h⟩ | ⟨-, -, h⟩ <;> exact ⟨_, h⟩
  have hlen : s'.src.length = s.src.length - j := by rw [hj, List.length_drop]
  by_cases hlt : s.src.length < t
  · exact .inl (by omega)
  by_cases hnil : s'.src = []
  · exact .inr (.inl hnil)
  have hpos' : 0 < s'.src.length := List.length_pos_iff.mpr hnil
  have hw : (s.src.length : Int) - t ≤ s.toread ∧ s.toread + (s.src.length - t) ≤ 2 * r ∧
      ((s.src.length : Int) - t < s.toread ∨ s.Defect) := by
    rcases hs with (hs | hs | hs) | ⟨hs, heq, hle⟩
    · exact absurd hs hlt
    · rw [hj, hs, List.drop_nil] at hnil
      exact absurd rfl hnil
    · exact ⟨by omega, hs.2, .inl hs.1⟩
    · exact ⟨by omega, by omega, .inr hs⟩
  obtain ⟨hle', hbound, hstrict⟩ := hw
  have hstrict' := hstrict.imp_right hd
  by_cases hover : 2147483648 ≤ nlen + vlen
  · -- far behind the record
    refine .inl ?_
    rcases hshape with ⟨-, -, hsrc⟩ | ⟨-, -, hsrc⟩ <;>
      have hlen' := congrArg List.length hsrc <;> rw [List.length_drop] at hlen'
    · have hbig : 2147483648 ≤ sizeT (int32 (nlen + vlen)) := by
        rw [int32_eq, sizeT]
        split <;> omega
      omega
    · omega
  · have hsum := int32_add hn0 hv0 hover
    rw [hsum] at hle
    refine .inr (.inr ?_)
    rcases hshape with ⟨-, htr, hsrc⟩ | ⟨hshort, htr, hsrc⟩ <;>
      have hlen' := congrArg List.length hsrc <;> rw [List.length_drop] at hlen'
    · have hsize : sizeT (int32 (nlen + vlen)) = nlen.toNat + vlen.toNat := by
        rw [hsum, sizeT]
        omega
      have h0 : 0 ≤ s.toread - k - (nlen - vlen) := by omega
      have h1 : s.toread - k - (nlen - vlen) < 2147483648 := by omega
      rw [int32_of_lt h0 h1] at htr
      rw [hsize] at hlen'
      omega
    · have h0 : 0 ≤ s.toread - k - nlen - vlen := by omega
      have h1 : s.toread - k - nlen - vlen < 2147483648 := by omega
      rw [int32_of_lt h0 h1] at htr
      omega

theorem behind_loop {r t : Nat} (hr : r ≤ 65535) {s : ParamSt} (hs : Behind r t s)
    (h : (paramLoop env n s).1 = true) :
    (paramLoop env n s).2.src.length < t ∨ (paramLoop env n s).2.src = [] := by
  induction n generalizing s with
  | zero => cases h
  | succ n ih =>
    rw [paramLoop] at h ⊢
    by_cases hpos : s.toread ≤ 0
    · rw [if_pos hpos]
      rcases hs with hs | hs | hs
      · exact .inl hs
      · exact .inr hs
      · exact .inl (by show s.src.length < t; omega)
    · rw [if_neg hpos] at h ⊢
      rcases hstep : paramStep env s with ⟨_ | _, s'⟩ <;> rw [hstep] at h
      · cases h
      · exact ih (behind_step hr (by omega) (.inl hs) hstep) h

/-- **Parameters that are counted wrong** take more than the record. -/
theorem paramLoop_overrun (env : Env) (t : Bytes) {m : Nat} {c : Client}
    (hlen : content.length ≤ 65535)
    (hover : overrun env m ⟨content.length, content ++ t, c⟩ = true)
    (h : (paramLoop env n ⟨content.length, content ++ t, c⟩).1 = true) :
    (paramLoop env n ⟨content.length, content ++ t, c⟩).2.src.length < t.length ∨
      (paramLoop env n ⟨content.length, content ++ t, c⟩).2.src = [] := by
  induction m generalizing content c n with
  | zero => cases hover
  | succ m ih =>
    cases n with
    | zero => cases h
    | succ n =>
      simp only [overrun, Bool.and_eq_true, Bool.or_eq_true, decide_eq_true_eq] at hover
      obtain ⟨hpos, hover⟩ := hover
      have hne : content ≠ [] := by
        rintro rfl
        exact absurd hpos (by simp)
      rw [paramLoop, if_neg (by show ¬ (content.length : Int) ≤ 0; omega)] at h ⊢
      by_cases hd : (ParamSt.mk content.length (content ++ t) c).Defect
      · rcases hstep : paramStep env ⟨content.length, content ++ t, c⟩ with ⟨_ | _, s'⟩ <;>
          rw [hstep] at h
        · cases h
        · refine behind_loop hlen (behind_step hlen hpos (.inr ⟨hd, ?_, ?_⟩) hstep) h
          · show ((content ++ t).length : Int) - t.length = content.length
            rw [List.length_append]
            omega
          · exact Int.le_refl _
      · rcases paramStep_append env hne hlen t c hd with
          ⟨hs, -⟩ | ⟨content', c', hless, hs, -⟩
        · rcases hstep : paramStep env ⟨content.length, content ++ t, c⟩ with ⟨_ | _, s'⟩ <;>
            rw [hstep] at h hs
          · cases h
          · cases hs
        · rw [hs] at h hover ⊢
          exact ih (by omega) (hover.resolve_left hd) h

/-! ## The whole record -/

/-- `fcgi_parse_params` on a record that is counted right. -/
theorem fcgiParseParams_framed (env : Env) (hlen : content.length ≤ 65535) (t : Bytes)
    (c : Client) (h : (ParamSt.mk content.length (content ++ t) c).overruns env = false) :
    ((fcgiParseParams env ⟨content.length, content ++ t, c⟩).1 = false ∧
      (fcgiParseParams env ⟨content.length, content, c⟩).1 = false) ∨
    ∃ c', fcgiParseParams env ⟨content.length, content ++ t, c⟩ = (true, ⟨0, t, c'⟩) ∧
      fcgiParseParams env ⟨content.length, content, c⟩ = (true, ⟨0, [], c'⟩) := by
  refine paramLoop_append env t (m := content.length) hlen (Nat.le_refl _) ?_ ?_ h
  · rw [List.length_append]
    omega
  · omega

/-- `fcgi_parse_params` on a record that is counted wrong. -/
theorem fcgiParseParams_overrun (env : Env) (hlen : content.length ≤ 65535) (t : Bytes)
    (c : Client) (hover : (ParamSt.mk content.length (content ++ t) c).overruns env = true)
    (h : (fcgiParseParams env ⟨content.length, content ++ t, c⟩).1 = true) :
    (fcgiParseParams env ⟨content.length, content ++ t, c⟩).2.src.length < t.length ∨
      (fcgiParseParams env ⟨content.length, content ++ t, c⟩).2.src = [] :=
  paramLoop_overrun env t hlen hover h

end Galileo
