import Galileo.Lib.FastCgi
import Galileo.Proof.Params

/-!
# Parameters as the web server encodes them

`Galileo.Proof.Params` takes the content of an `FCGI_PARAMS` record as it comes. Here it is what a
web server makes: name-value pairs, encoded one after the other. `fcgiParseParams_encode` is the
round trip, so that a client can be spoken of as one that was *given* values.
-/

set_option autoImplicit false

namespace Galileo

open Lib Lib.FastCgi

variable {ps : List (Bytes × Bytes)} {p : Bytes × Bytes} {t : Nat}

/-! ## Parameters that were given -/

/-- The client with one more parameter. -/
def Client.given (env : Env) (c : Client) (p : Bytes × Bytes) : Client :=
  match paramStore env p.1 p.2.length with
  | some put => put p.2 c
  | none => c

/-- A pair whose name `fcgi_parse_params` reads as it is. -/
structure Legible (p : Bytes × Bytes) : Prop where
  short : p.1.length ≤ 31
  noNul : 0 ∉ p.1

theorem parseLen_encode {n : Nat} (h : n < 2 ^ 31) {t : Int}
    (ht : (encodeLen n).length ≤ t) (s : Bytes) :
    parseLen t (encodeLen n ++ s) = ⟨n, t - (encodeLen n).length, s⟩ := by
  rw [encodeLen] at ht ⊢
  by_cases hn : n < 128
  · rw [if_pos hn]
    have hbyte : (UInt8.ofNat n).toNat = n := by
      rw [UInt8.toNat_ofNat']
      omega
    simp only [parseLen, List.cons_append, List.nil_append, List.headD_cons, List.drop_succ_cons,
      List.drop_zero, hbyte]
    rw [if_pos (by rw [Nat.shiftRight_eq_div_pow]; omega)]
    rfl
  · rw [if_neg hn] at ht ⊢
    have hfour : (4 : Int) ≤ t := ht
    simp only [parseLen, List.cons_append, List.nil_append, List.headD_cons, List.drop_succ_cons,
      List.drop_zero, UInt8.toNat_ofNat', List.length_cons, List.length_nil]
    rw [if_neg (by rw [Nat.shiftRight_eq_div_pow]; omega), if_neg (by omega)]
    have hlong := encodeLen_long h
    congr 1
    · exact congrArg Int.ofNat hlong
    · omega

theorem evbufferRemove_length (a b : Bytes) : evbufferRemove a.length (a ++ b) = (a, b) := by
  rw [evbufferRemove, List.append_assoc, List.take_left, List.drop_left]

theorem encodePair_length_pos (p : Bytes × Bytes) : 0 < (encodePair p).length := by
  have hlen : 0 < (encodeLen p.1.length).length := by
    rw [encodeLen]
    split_ifs <;> exact Nat.succ_pos _
  simp only [encodePair, List.length_append]
  omega

theorem length_encodePair (p : Bytes × Bytes) :
    (encodePair p).length = (encodeLen p.1.length).length
      + ((encodeLen p.2.length).length + (p.1.length + p.2.length)) := by
  simp only [encodePair, List.length_append]

/-- The two lengths of a pair, with `t` bytes of the record behind it. -/
theorem parseLen_encodePair (hlen : (encodePair p).length + t ≤ 65535) (s : Bytes) :
    ∃ n : LenRes, parseLen (((encodePair p).length + t : Nat) : Int) (encodePair p ++ s) = n ∧
      n.len = p.1.length ∧
      parseLen n.toread n.src = LenRes.mk p.2.length ((p.1.length + p.2.length + t : Nat) : Int)
        (p.1 ++ (p.2 ++ s)) := by
  rw [length_encodePair] at hlen ⊢
  have hsrc : encodePair p ++ s
      = encodeLen p.1.length ++ (encodeLen p.2.length ++ (p.1 ++ (p.2 ++ s))) := by
    simp only [encodePair, List.append_assoc]
  rw [hsrc]
  generalize hk : (encodeLen p.1.length).length = k at hlen ⊢
  generalize hm : (encodeLen p.2.length).length = m at hlen ⊢
  have hn := parseLen_encode (n := p.1.length) (by omega)
    (t := ((k + (m + (p.1.length + p.2.length)) + t : Nat) : Int)) (by omega)
    (encodeLen p.2.length ++ (p.1 ++ (p.2 ++ s)))
  have hv := parseLen_encode (n := p.2.length) (by omega)
    (t := ((m + (p.1.length + p.2.length) + t : Nat) : Int)) (by omega) (p.1 ++ (p.2 ++ s))
  rw [hk] at hn
  rw [hm] at hv
  have hrest : ((k + (m + (p.1.length + p.2.length)) + t : Nat) : Int) - k
      = ((m + (p.1.length + p.2.length) + t : Nat) : Int) := by omega
  have hrest' : ((m + (p.1.length + p.2.length) + t : Nat) : Int) - m
      = ((p.1.length + p.2.length + t : Nat) : Int) := by omega
  rw [hrest] at hn
  rw [hrest'] at hv
  exact ⟨_, hn, rfl, hv⟩

/-- A pair that is counted right: its name fits `pname`, or it has no value. -/
def Countable (p : Bytes × Bytes) : Prop := p.1.length ≤ 31 ∨ p.2 = []

instance (p : Bytes × Bytes) : Decidable (Countable p) := inferInstanceAs (Decidable (_ ∨ _))

/-- The client after a pair. The name ends at its first NUL, and one that is too long is not
looked at. -/
def Client.taught (env : Env) (c : Client) (p : Bytes × Bytes) : Client :=
  if 31 < p.1.length then c else c.given env (cstr p.1, p.2)

theorem Client.taught_of_legible (env : Env) (c : Client) (hp : Legible p) :
    c.taught env p = c.given env p := by
  rw [Client.taught, if_neg (Nat.not_lt.mpr hp.short), cstr_eq_self hp.noNul]

/-- **One pair**, if it is counted right. -/
theorem paramStep_pair (env : Env) (hp : Countable p) (hlen : (encodePair p).length + t ≤ 65535)
    (s : Bytes) (c : Client) :
    paramStep env ⟨(((encodePair p).length + t : Nat) : Int), encodePair p ++ s, c⟩
      = (true, ⟨(t : Int), s, c.taught env p⟩) := by
  obtain ⟨n, hn, hnlen, hv⟩ := parseLen_encodePair hlen s
  have hle : p.1.length + p.2.length + t ≤ 65535 := by
    rw [length_encodePair] at hlen
    omega
  have hname : evbufferRemove p.1.length (p.1 ++ (p.2 ++ s)) = (p.1, p.2 ++ s) :=
    evbufferRemove_length _ _
  have hvalue : evbufferRemove p.2.length (p.2 ++ s) = (p.2, s) := evbufferRemove_length _ _
  have hsum : int32 ((p.1.length : Int) + p.2.length) = p.1.length + p.2.length :=
    int32_of_lt (by omega) (by omega)
  have hfits : ¬ Rejects n ⟨p.2.length, ((p.1.length + p.2.length + t : Nat) : Int),
      p.1 ++ (p.2 ++ s)⟩ := by
    simp only [Rejects, hnlen, hsum]
    omega
  by_cases hlong : 31 < p.1.length
  · -- nothing but the name is left of the pair
    obtain hnil : p.2 = [] := hp.resolve_left (Nat.not_le.mpr hlong)
    have hcount : int32 (((p.1.length + p.2.length + t : Nat) : Int) - (p.1.length - p.2.length))
        = t := by
      have hzero : p.2.length = 0 := by rw [hnil]; rfl
      rw [int32_of_lt (by omega) (by omega)]
      omega
    have hsize : sizeT (int32 ((p.1.length : Int) + p.2.length)) = p.1.length + p.2.length := by
      rw [hsum, sizeT]
      omega
    rw [@paramStep_ignored env ⟨(((encodePair p).length + t : Nat) : Int), encodePair p ++ s, c⟩ n _
      hn hv hfits (by rw [hnlen]; omega), hnlen]
    dsimp only
    rw [hcount, hsize, Client.taught, if_pos hlong, evbufferDrain, hnil, List.nil_append,
      List.length_nil, Nat.add_zero, List.drop_left]
  · have hcount : int32 (((p.1.length + p.2.length + t : Nat) : Int) - p.1.length - p.2.length)
        = t := by
      rw [int32_of_lt (by omega) (by omega)]
      omega
    have hclient : pairClient env (p.1.length : Int) (p.2.length : Int) (p.1 ++ (p.2 ++ s)) c
        = c.taught env p := by
      rw [Client.taught, if_neg hlong, Client.given]
      cases hput : paramStore env (cstr p.1) p.2.length <;>
        simp only [pairClient, Int.toNat_natCast, hname, hvalue, hput]
    rw [@paramStep_taken env ⟨(((encodePair p).length + t : Nat) : Int), encodePair p ++ s, c⟩ n _
      hn hv hfits (by rw [hnlen]; omega), hnlen]
    dsimp only
    rw [hcount, hclient, Int.toNat_natCast, Int.toNat_natCast, List.drop_left, List.drop_left]

/-- The pairs at the front of a record, one after the other. -/
theorem paramLoop_pairs (env : Env) (hps : ∀ p ∈ ps, Countable p)
    (hlen : (ps.flatMap encodePair).length + t ≤ 65535) (s : Bytes) (c : Client) (n : Nat) :
    paramLoop env (ps.length + n)
        ⟨(((ps.flatMap encodePair).length + t : Nat) : Int), ps.flatMap encodePair ++ s, c⟩
      = paramLoop env n ⟨(t : Int), s, ps.foldl (Client.taught env) c⟩ := by
  induction ps generalizing c with
  | nil => simp
  | cons p ps ih =>
    have hpos := encodePair_length_pos p
    rw [List.flatMap_cons, List.length_append] at hlen
    have hsplit : ((p :: ps).flatMap encodePair).length + t
        = (encodePair p).length + ((ps.flatMap encodePair).length + t) := by
      rw [List.flatMap_cons, List.length_append, Nat.add_assoc]
    have hstep := paramStep_pair env (hps p (by simp)) (t := (ps.flatMap encodePair).length + t)
      (by omega) (ps.flatMap encodePair ++ s) c
    have hmore : ¬ (((encodePair p).length + ((ps.flatMap encodePair).length + t) : Nat) : Int)
        ≤ 0 := by
      omega
    rw [hsplit, List.flatMap_cons, List.append_assoc, List.length_cons, Nat.add_right_comm,
      paramLoop, if_neg hmore, hstep]
    exact ih (fun q hq => hps q (by simp [hq])) (by omega) _

theorem length_le_flatMap_encodePair (ps : List (Bytes × Bytes)) :
    ps.length ≤ (ps.flatMap encodePair).length := by
  induction ps with
  | nil => exact Nat.le_refl _
  | cons p ps ih =>
    have hpos := encodePair_length_pos p
    rw [List.flatMap_cons, List.length_append, List.length_cons]
    omega

/-- The rounds `fcgi_parse_params` may take are more than there are pairs. -/
theorem fcgiParseParams_pairs (env : Env) (hps : ∀ p ∈ ps, Countable p)
    (hlen : (ps.flatMap encodePair).length + t ≤ 65535) (s : Bytes) (c : Client) :
    ∃ n, fcgiParseParams env
        ⟨(((ps.flatMap encodePair).length + t : Nat) : Int), ps.flatMap encodePair ++ s, c⟩
      = paramLoop env (n + 1) ⟨(t : Int), s, ps.foldl (Client.taught env) c⟩ := by
  have hle := length_le_flatMap_encodePair ps
  obtain ⟨n, hn⟩ : ∃ n, (ps.flatMap encodePair ++ s).length + 2 ^ 31 = ps.length + (n + 1) := by
    rw [List.length_append]
    exact ⟨(ps.flatMap encodePair).length + s.length + 2147483647 - ps.length, by omega⟩
  refine ⟨n, ?_⟩
  rw [fcgiParseParams]
  dsimp only
  rw [hn]
  exact paramLoop_pairs env hps hlen s c (n + 1)

/-- A record of pairs that are counted right. -/
theorem fcgiParseParams_countable (env : Env) (hps : ∀ p ∈ ps, Countable p)
    (hlen : (ps.flatMap encodePair).length ≤ 65535) (s : Bytes) (c : Client) :
    fcgiParseParams env ⟨(ps.flatMap encodePair).length, ps.flatMap encodePair ++ s, c⟩
      = (true, ⟨0, s, ps.foldl (Client.taught env) c⟩) := by
  obtain ⟨n, hn⟩ := fcgiParseParams_pairs env hps (t := 0) hlen s c
  exact hn

/-- **What the web server sends is what is stored**: the parameters of a record, one after the
other. -/
theorem fcgiParseParams_encode (env : Env) (hps : ∀ p ∈ ps, Legible p)
    (hlen : (ps.flatMap encodePair).length ≤ 65535) (s : Bytes) (c : Client) :
    fcgiParseParams env ⟨(ps.flatMap encodePair).length, ps.flatMap encodePair ++ s, c⟩
      = (true, ⟨0, s, ps.foldl (Client.given env) c⟩) := by
  have hsame : ps.foldl (Client.taught env) c = ps.foldl (Client.given env) c :=
    List.foldl_ext _ _ _ fun c p hp => c.taught_of_legible env (hps p hp)
  rw [fcgiParseParams_countable env (fun p hp => .inl (hps p hp).short) hlen, hsame]

end Galileo
