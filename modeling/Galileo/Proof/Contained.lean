import Galileo.Lib.FastCgi
import Galileo.Proof.Params

/-!
# Parameters that stay inside their record

The lengths in a `FCGI_PARAMS` record are numbers of 31 bits that the peer chooses, and a record can
end anywhere. What the parser does with it is followed statement by statement (`Point`): the values
`fcg_toread` takes, what is left of the buffer, and the sums `nlen + vlen`.

Whether all of these stay in bounds can be read off the record (`contained`): walk along its pairs,
with an eye on how far `fcg_toread` is *ahead* of the bytes that are left. It is not ahead at first.
A name that is too long makes it so, by twice the length of the value; and once it is ahead, the
parser has to give up before the record ends.
-/

set_option autoImplicit false

namespace Galileo

open Lib

variable {content : Bytes} {ahead : Nat} {s : ParamSt}

/-! ## Every statement of the parser -/

/-- What one statement leaves: the count and the buffer, or a sum of two lengths. -/
inductive Point where
  | reads (toread : Int) (src : Bytes)
  | sum (x : Int)
deriving DecidableEq

/-- The statements of `parse_len`. -/
def lenPoints (toread : Int) (src : Bytes) : List Point :=
  .reads (toread - 1) (src.drop 1) ::
    if (src.headD 0).toNat >>> 7 = 0 ∨ toread - 1 < 3 then []
    else [.reads (toread - 4) (src.drop 4)]

/-- The statements behind the two lengths. -/
def pairPoints (nlen : Int) (v : LenRes) : List Point :=
  .sum (nlen + v.len) ::
    if v.toread < int32 (nlen + v.len) then []
    else if nlen > 31 then
      [.reads (int32 (v.toread - (nlen - v.len)))
        (evbufferDrain (sizeT (int32 (nlen + v.len))) v.src)]
    else
      [.reads (int32 (v.toread - nlen)) (v.src.drop nlen.toNat),
        .reads (int32 (v.toread - nlen - v.len)) ((v.src.drop nlen.toNat).drop v.len.toNat)]

/-- The statements of one round. -/
def stepPoints (s : ParamSt) : List Point :=
  let n := parseLen s.toread s.src
  let v := parseLen n.toread n.src
  lenPoints s.toread s.src ++
    if n.len < 0 then []
    else lenPoints n.toread n.src ++
      if v.len < 0 then [] else pairPoints n.len v

/-- The statements of the first `n` rounds. -/
def loopPoints (env : Env) : Nat → ParamSt → List Point
  | 0, _ => []
  | n + 1, s =>
      if s.toread ≤ 0 then []
      else stepPoints s ++
        match paramStep env s with
        | (true, s) => loopPoints env n s
        | (false, _) => []

/-- The loop ends within `n` rounds. -/
def loopEnds (env : Env) : Nat → ParamSt → Bool
  | 0, _ => false
  | n + 1, s =>
      decide (s.toread ≤ 0) ||
        match paramStep env s with
        | (true, s) => loopEnds env n s
        | (false, _) => true

/-- Nothing behind the record was taken, and the numbers are in range. -/
def Point.Inside (behind : Bytes) : Point → Prop
  | .reads toread src => 0 ≤ toread ∧ behind.length ≤ src.length
  | .sum x => x < 2 ^ 31

instance (behind : Bytes) : ∀ p : Point, Decidable (p.Inside behind)
  | .reads _ _ => inferInstanceAs (Decidable (_ ∧ _))
  | .sum _ => inferInstanceAs (Decidable (_ < _))

/-- `fcgi_parse_params` keeps to the record. -/
structure KeepsInside (env : Env) (content behind : Bytes) (c : Client) : Prop where
  ends : loopEnds env ((content ++ behind).length + 2 ^ 31)
    ⟨content.length, content ++ behind, c⟩ = true
  points : ∀ n, ∀ p ∈ loopPoints env n ⟨content.length, content ++ behind, c⟩, p.Inside behind
  exact : ∀ s, fcgiParseParams env ⟨content.length, content ++ behind, c⟩ = (true, s) →
    s.toread = 0 ∧ s.src = behind

/-! ## The loop ends -/

/-- With nothing left in the buffer, a round counts two bytes. -/
theorem paramStep_empty (env : Env) {toread : Int} (h : 0 < toread) (hmax : toread < 2 ^ 31)
    (c : Client) (hstep : paramStep env ⟨toread, [], c⟩ = (true, s)) :
    s.toread = toread - 2 ∧ s.src = [] := by
  have hn : parseLen toread [] = ⟨0, toread - 1, []⟩ := rfl
  have hv : parseLen (toread - 1) [] = ⟨0, toread - 2, []⟩ := by
    show LenRes.mk 0 (toread - 1 - 1) [] = _
    congr 1
    omega
  by_cases hrej : Rejects ⟨0, toread - 1, []⟩ ⟨0, toread - 2, []⟩
  · have hfalse := @paramStep_rejects env ⟨toread, [], c⟩ _ _ hn hv hrej
    rw [hstep] at hfalse
    cases hfalse
  · rw [paramStep_taken (s := ⟨toread, [], c⟩) hn hv hrej (show ¬ (31 : Int) < 0 by decide)]
      at hstep
    have hge : 0 ≤ toread - 2 := by
      simp only [Rejects, not_or] at hrej
      exact Int.not_lt.mp hrej.2.2
    cases hstep
    refine ⟨?_, by simp⟩
    dsimp only
    rw [int32_of_lt (by omega) (by omega)]
    omega

theorem loopEnds_empty (env : Env) {n : Nat} {toread : Int} {c : Client} (hmax : toread < 2 ^ 31)
    (hn : toread ≤ 2 * n) : loopEnds env (n + 1) ⟨toread, [], c⟩ = true := by
  induction n generalizing toread c with
  | zero =>
    have hle : toread ≤ 0 := by omega
    simp [loopEnds, hle]
  | succ n ih =>
    rw [loopEnds, Bool.or_eq_true, decide_eq_true_eq]
    by_cases hpos : toread ≤ 0
    · exact .inl hpos
    · right
      split
      · rename_i s hstep
        obtain ⟨toread', src, c'⟩ := s
        obtain ⟨rfl, rfl⟩ := paramStep_empty env (by omega) hmax c hstep
        exact ih (by omega) (by omega)
      · rfl

/-- A round that goes well takes something from the buffer, if there is something in it. -/
theorem paramStep_shortens {env : Env} {s s' : ParamSt} (h : paramStep env s = (true, s'))
    (hne : s.src ≠ []) : s'.src.length < s.src.length ∧ s'.toread < 2 ^ 31 := by
  have hpos := List.length_pos_iff.mpr hne
  obtain ⟨k, nlen, vlen, hk, -, -, -, -, -, -, hshape⟩ := paramStep_shape h
  rcases hshape with ⟨-, htr, hsrc⟩ | ⟨-, htr, hsrc⟩ <;>
    · rw [htr, hsrc, List.length_drop]
      exact ⟨by omega, int32_lt _⟩

theorem loopEnds_of_length (env : Env) {m : Nat} (hm : s.src.length ≤ m)
    (hmax : s.toread < 2 ^ 31) : loopEnds env (m + 2 ^ 30 + 1) s = true := by
  induction m generalizing s with
  | zero =>
    obtain ⟨toread, src, c⟩ := s
    obtain rfl : src = [] := List.eq_nil_of_length_eq_zero (Nat.le_zero.mp hm)
    exact loopEnds_empty env hmax (by dsimp only at hmax; omega)
  | succ m ih =>
    by_cases hnil : s.src = []
    · obtain ⟨toread, src, c⟩ := s
      dsimp only at hnil hmax
      subst hnil
      exact loopEnds_empty env hmax (by omega)
    · have hfuel : m + 1 + 2 ^ 30 + 1 = (m + 2 ^ 30 + 1) + 1 := by omega
      rw [hfuel, loopEnds, Bool.or_eq_true]
      right
      split
      · rename_i s' hstep
        obtain ⟨hless, hmax'⟩ := paramStep_shortens hstep hnil
        exact ih (by omega) hmax'
      · rfl

/-- **The parser always ends**, within the rounds the model allows it. -/
theorem fcgiParseParams_ends (env : Env) (hmax : s.toread < 2 ^ 31) :
    loopEnds env (s.src.length + 2 ^ 31) s = true := by
  have hfuel : s.src.length + 2 ^ 31 = (s.src.length + 2 ^ 30 - 1) + 2 ^ 30 + 1 := by omega
  rw [hfuel]
  exact loopEnds_of_length env (by omega) hmax

/-! ## What can be read off the record -/

/-- A length field at the front of a record, with `fcg_toread` that much ahead: it is not all
there, or the parser gives up on it, or this is the length and what follows. -/
inductive LenField where
  | outside
  | refused
  | read (len : Nat) (rest : Bytes)

def lenField (ahead : Nat) : Bytes → LenField
  | [] => .outside
  | b :: rest =>
      if b.toNat < 128 then .read b.toNat rest
      else if rest.length + ahead < 3 then .refused
      else match rest with
        | x0 :: x1 :: x2 :: rest =>
            .read ((b.toNat - 128) * 2 ^ 24 + x0.toNat * 2 ^ 16 + x1.toNat * 2 ^ 8 + x2.toNat) rest
        | _ => .outside

/-- The parser can walk along the record without leaving it, with `fcg_toread` that much ahead of
the bytes that are left. -/
def contained : Nat → Nat → Bytes → Bool
  | 0, _, _ => false
  | n + 1, ahead, content =>
      if content = [] then ahead = 0
      else match lenField ahead content with
        | .outside => false
        | .refused => true
        | .read nlen content =>
            match lenField ahead content with
            | .outside => false
            | .refused => true
            | .read vlen content =>
                if 2 ^ 31 ≤ nlen + vlen then false
                else if content.length + ahead < nlen + vlen then true
                else if content.length < nlen + vlen then false
                else contained n (if 31 < nlen then ahead + 2 * vlen else ahead)
                  (content.drop (nlen + vlen))

/-- The ways to read a length field. -/
inductive LenCase (ahead : Nat) : Bytes → LenField → Prop
  | nothing : LenCase ahead [] .outside
  | short (b : UInt8) (rest : Bytes) (hb : b.toNat < 128) :
      LenCase ahead (b :: rest) (.read b.toNat rest)
  | refused (b : UInt8) (rest : Bytes) (hb : ¬ b.toNat < 128) (hlen : rest.length + ahead < 3) :
      LenCase ahead (b :: rest) .refused
  | long (b x0 x1 x2 : UInt8) (rest : Bytes) (hb : ¬ b.toNat < 128) :
      LenCase ahead (b :: x0 :: x1 :: x2 :: rest) (.read
        ((b.toNat - 128) * 2 ^ 24 + x0.toNat * 2 ^ 16 + x1.toNat * 2 ^ 8 + x2.toNat) rest)
  | cut (b : UInt8) (rest : Bytes) (hb : ¬ b.toNat < 128) (hlen : rest.length < 3)
      (hge : 3 ≤ rest.length + ahead) : LenCase ahead (b :: rest) .outside

theorem lenField_cases (ahead : Nat) (content : Bytes) :
    LenCase ahead content (lenField ahead content) := by
  cases content with
  | nil => exact .nothing
  | cons b rest =>
    unfold lenField
    dsimp only
    by_cases hb : b.toNat < 128
    · rw [if_pos hb]
      exact .short b rest hb
    rw [if_neg hb]
    by_cases hlen : rest.length + ahead < 3
    · rw [if_pos hlen]
      exact .refused b rest hb hlen
    rw [if_neg hlen]
    match rest, hlen with
    | x0 :: x1 :: x2 :: rest, _ => exact .long b x0 x1 x2 rest hb
    | [], hlen => exact .cut b [] hb (by decide) (Nat.not_lt.mp hlen)
    | [x0], hlen => exact .cut b [x0] hb (by simp) (Nat.not_lt.mp hlen)
    | [x0, x1], hlen => exact .cut b [x0, x1] hb (by simp) (Nat.not_lt.mp hlen)

/-- One more byte behind a number. -/
theorem shiftLeft_or_byte (a : Nat) (b : UInt8) (k : Nat) :
    a <<< (k + 8) ||| b.toNat <<< k = (a * 2 ^ 8 + b.toNat) <<< k := by
  have hb : b.toNat <<< k < 2 ^ (k + 8) := by
    rw [Nat.shiftLeft_eq, Nat.pow_add, Nat.mul_comm]
    exact Nat.mul_lt_mul_of_pos_left b.toNat_lt (Nat.two_pow_pos k)
  rw [FastCgi.shiftLeft_or hb, Nat.shiftLeft_eq, Nat.shiftLeft_eq, Nat.add_mul, Nat.pow_add,
    Nat.mul_assoc, Nat.mul_comm (2 ^ k)]

/-- The four bytes of a long length. -/
theorem four_bytes {b : UInt8} (hb : ¬ b.toNat < 128) (x0 x1 x2 : UInt8) :
    (b.toNat &&& 0x7F) <<< 24 ||| x0.toNat <<< 16 ||| x1.toNat <<< 8 ||| x2.toNat
      = (b.toNat - 128) * 2 ^ 24 + x0.toNat * 2 ^ 16 + x1.toNat * 2 ^ 8 + x2.toNat := by
  have hlt := b.toNat_lt
  have htop : b.toNat &&& 0x7F = b.toNat - 128 := by
    rw [show (0x7F : Nat) = 2 ^ 7 - 1 from rfl, Nat.and_two_pow_sub_one_eq_mod]
    omega
  have hlast := shiftLeft_or_byte (((b.toNat - 128) * 2 ^ 8 + x0.toNat) * 2 ^ 8 + x1.toNat) x2 0
  rw [htop, shiftLeft_or_byte _ x0 16, shiftLeft_or_byte _ x1 8]
  rw [Nat.shiftLeft_zero, Nat.shiftLeft_zero] at hlast
  rw [hlast]
  omega

theorem shiftRight_seven {b : UInt8} : b.toNat >>> 7 = 0 ↔ b.toNat < 128 := by
  rw [Nat.shiftRight_eq_div_pow]
  omega

/-- A field that is there is read as it is, and nothing else is taken. -/
theorem parseLen_read {content rest : Bytes} {len : Nat}
    (h : lenField ahead content = .read len rest) (t : Bytes) :
    parseLen ((content.length + ahead : Nat) : Int) (content ++ t)
        = ⟨len, ((rest.length + ahead : Nat) : Int), rest ++ t⟩ ∧
      len < 2 ^ 31 ∧ rest.length < content.length ∧
      ∀ p ∈ lenPoints ((content.length + ahead : Nat) : Int) (content ++ t), p.Inside t := by
  have hcase := lenField_cases ahead content
  rw [h] at hcase
  cases hcase with
  | short b rest hb =>
    have htop := shiftRight_seven.mpr hb
    refine ⟨?_, by omega, Nat.lt_succ_self _, ?_⟩
    · unfold parseLen
      dsimp only [List.cons_append, List.headD_cons, List.drop_succ_cons, List.drop_zero]
      rw [if_pos htop]
      congr 1
      rw [List.length_cons]
      omega
    · intro p hp
      rw [lenPoints, if_pos (.inl htop)] at hp
      obtain rfl := List.mem_singleton.mp hp
      refine ⟨?_, ?_⟩
      · rw [List.length_cons]
        omega
      · simp
  | long b x0 x1 x2 rest hb =>
    have htop : ¬ b.toNat >>> 7 = 0 := fun h => hb (shiftRight_seven.mp h)
    have hmore : ¬ (((b :: x0 :: x1 :: x2 :: rest).length + ahead : Nat) : Int) - 1 < 3 := by
      simp only [List.length_cons]
      omega
    have h0 := b.toNat_lt
    have h1 := x0.toNat_lt
    have h2 := x1.toNat_lt
    have h3 := x2.toNat_lt
    refine ⟨?_, by omega, ?_, ?_⟩
    · unfold parseLen
      dsimp only [List.cons_append, List.headD_cons, List.drop_succ_cons, List.drop_zero]
      rw [if_neg htop, if_neg hmore, four_bytes hb]
      congr 1
      simp only [List.length_cons]
      omega
    · simp only [List.length_cons]
      omega
    · intro p hp
      rw [lenPoints, if_neg (by rintro (h | h); exacts [htop h, hmore h])] at hp
      rcases List.mem_cons.mp hp with rfl | hp
      · refine ⟨by simp only [List.length_cons]; omega, ?_⟩
        simp only [List.cons_append, List.drop_succ_cons, List.drop_zero, List.length_cons,
          List.length_append]
        omega
      · obtain rfl := List.mem_singleton.mp hp
        exact ⟨by simp only [List.length_cons]; omega, by simp⟩

theorem parseLen_refused (h : lenField ahead content = .refused) (t : Bytes) :
    (parseLen ((content.length + ahead : Nat) : Int) (content ++ t)).len = -1 ∧
      ∀ p ∈ lenPoints ((content.length + ahead : Nat) : Int) (content ++ t), p.Inside t := by
  have hcase := lenField_cases ahead content
  rw [h] at hcase
  cases hcase with
  | refused b rest hb hlen =>
    have htop : ¬ b.toNat >>> 7 = 0 := fun h => hb (shiftRight_seven.mp h)
    have hless : (((b :: rest).length + ahead : Nat) : Int) - 1 < 3 := by
      rw [List.length_cons]
      omega
    constructor
    · unfold parseLen
      dsimp only [List.cons_append, List.headD_cons]
      rw [if_neg htop, if_pos hless]
    · intro p hp
      rw [lenPoints, if_pos (.inr hless)] at hp
      obtain rfl := List.mem_singleton.mp hp
      exact ⟨by rw [List.length_cons]; omega, by simp⟩

theorem parseLen_outside (h : lenField ahead content = .outside) {t : Bytes} (ht : t ≠ []) :
    ∃ p ∈ lenPoints ((content.length + ahead : Nat) : Int) (content ++ t), ¬ p.Inside t := by
  have hpos := List.length_pos_iff.mpr ht
  have hcase := lenField_cases ahead content
  rw [h] at hcase
  cases hcase with
  | nothing =>
    refine ⟨_, List.mem_cons_self .., fun hin => ?_⟩
    have := hin.2
    rw [List.nil_append, List.length_drop] at this
    omega
  | cut b rest hb hlen hge =>
    have htop : ¬ b.toNat >>> 7 = 0 := fun h => hb (shiftRight_seven.mp h)
    have hmore : ¬ (((b :: rest).length + ahead : Nat) : Int) - 1 < 3 := by
      rw [List.length_cons]
      omega
    refine ⟨.reads ((((b :: rest).length + ahead : Nat) : Int) - 4) ((b :: rest ++ t).drop 4), ?_,
      fun hin => ?_⟩
    · rw [lenPoints, if_neg (by rintro (h | h); exacts [htop h, hmore h])]
      exact List.mem_cons_of_mem _ (List.mem_singleton.mpr rfl)
    · have := hin.2
      rw [List.length_drop, List.length_append, List.length_cons] at this
      omega

/-! ## Round by round -/

section Rounds

variable (env : Env) {ahead nlen vlen : Nat} {content content₁ content₂ : Bytes} {t : Bytes}
  {c : Client}

/-- The state of the parser: the rest of the record and what stands behind it. -/
def ParamSt.at (ahead : Nat) (content t : Bytes) (c : Client) : ParamSt :=
  ⟨((content.length + ahead : Nat) : Int), content ++ t, c⟩

/-- The first length is refused. -/
theorem round_refused (h : lenField ahead content = .refused) (t : Bytes) (c : Client) :
    (paramStep env (.at ahead content t c)).1 = false ∧
      ∀ p ∈ stepPoints (.at ahead content t c), p.Inside t := by
  obtain ⟨hlen, hpoints⟩ := parseLen_refused h t
  constructor
  · refine paramStep_rejects rfl rfl (.inl ?_)
    rw [ParamSt.at, hlen]
    decide
  · unfold stepPoints ParamSt.at
    dsimp only
    rw [hlen, if_pos (by decide), List.append_nil]
    exact hpoints

/-- The second length is refused. -/
theorem round_refused' (h : lenField ahead content = .read nlen content₁)
    (h' : lenField ahead content₁ = .refused) (t : Bytes) (c : Client) :
    (paramStep env (.at ahead content t c)).1 = false ∧
      ∀ p ∈ stepPoints (.at ahead content t c), p.Inside t := by
  obtain ⟨hn, -, -, hpoints⟩ := parseLen_read h t
  obtain ⟨hlen, hpoints'⟩ := parseLen_refused h' t
  constructor
  · refine paramStep_rejects (s := .at ahead content t c) hn rfl (.inr (.inl ?_))
    dsimp only
    rw [hlen]
    decide
  · unfold stepPoints ParamSt.at
    dsimp only
    rw [hn]
    dsimp only
    rw [hlen, if_neg (by omega), if_pos (by decide), List.append_nil]
    exact List.forall_mem_append.mpr ⟨hpoints, hpoints'⟩

/-- Both lengths are there: what is behind them decides. -/
theorem stepPoints_read (h : lenField ahead content = .read nlen content₁)
    (h' : lenField ahead content₁ = .read vlen content₂) (t : Bytes) (c : Client) :
    (∀ p ∈ stepPoints (.at ahead content t c), p.Inside t) ↔
      ∀ p ∈ pairPoints nlen ⟨vlen, ((content₂.length + ahead : Nat) : Int), content₂ ++ t⟩,
        p.Inside t := by
  obtain ⟨hn, -, -, hpoints⟩ := parseLen_read h t
  obtain ⟨hv, -, -, hpoints'⟩ := parseLen_read h' t
  unfold stepPoints ParamSt.at
  dsimp only
  rw [hn]
  dsimp only
  rw [hv, if_neg (by omega), if_neg (by dsimp only; omega), List.forall_mem_append,
    List.forall_mem_append]
  exact ⟨fun hall => hall.2.2, fun hall => ⟨hpoints, hpoints', hall⟩⟩

theorem paramStep_read (h : lenField ahead content = .read nlen content₁)
    (h' : lenField ahead content₁ = .read vlen content₂) (t : Bytes) (c : Client) :
    ((content₂.length + ahead : Nat) < int32 ((nlen : Int) + vlen) →
      (paramStep env (.at ahead content t c)).1 = false) ∧
    (¬ (content₂.length + ahead : Nat) < int32 ((nlen : Int) + vlen) → 31 < nlen →
      paramStep env (.at ahead content t c)
        = (true, ⟨int32 ((content₂.length + ahead : Nat) - ((nlen : Int) - vlen)),
          evbufferDrain (sizeT (int32 ((nlen : Int) + vlen))) (content₂ ++ t), c⟩)) ∧
    (¬ (content₂.length + ahead : Nat) < int32 ((nlen : Int) + vlen) → ¬ 31 < nlen →
      paramStep env (.at ahead content t c)
        = (true, ⟨int32 ((content₂.length + ahead : Nat) - (nlen : Int) - vlen),
          ((content₂ ++ t).drop nlen).drop vlen,
          pairClient env nlen vlen (content₂ ++ t) c⟩)) := by
  obtain ⟨hn, -, -, -⟩ := parseLen_read h t
  obtain ⟨hv, -, -, -⟩ := parseLen_read h' t
  have hacc (hle : ¬ (content₂.length + ahead : Nat) < int32 ((nlen : Int) + vlen)) :
      ¬ Rejects ⟨nlen, ((content₁.length + ahead : Nat) : Int), content₁ ++ t⟩
        ⟨vlen, ((content₂.length + ahead : Nat) : Int), content₂ ++ t⟩ := by
    rintro (hrej | hrej | hrej)
    · dsimp only at hrej
      omega
    · dsimp only at hrej
      omega
    · exact hle hrej
  refine ⟨fun hlt => ?_, fun hle hlong => ?_, fun hle hshort => ?_⟩
  · exact paramStep_rejects (s := .at ahead content t c) hn hv (.inr (.inr hlt))
  · exact paramStep_ignored (s := .at ahead content t c) hn hv (hacc hle) (by dsimp only; omega)
  · rw [paramStep_taken (s := .at ahead content t c) hn hv (hacc hle) (by dsimp only; omega)]
    rfl

/-- The pair is longer than what is left, and the parser sees it. -/
theorem round_rejected (h : lenField ahead content = .read nlen content₁)
    (h' : lenField ahead content₁ = .read vlen content₂) (hsum : nlen + vlen < 2 ^ 31)
    (hlong : content₂.length + ahead < nlen + vlen) (t : Bytes) (c : Client) :
    (paramStep env (.at ahead content t c)).1 = false ∧
      ∀ p ∈ stepPoints (.at ahead content t c), p.Inside t := by
  obtain ⟨hrej, -, -⟩ := paramStep_read env h h' t c
  have hlt : ((content₂.length + ahead : Nat) : Int) < int32 ((nlen : Int) + vlen) := by
    rw [int32_of_lt (by omega) (by omega)]
    omega
  refine ⟨hrej hlt, (stepPoints_read h h' t c).mpr fun p hp => ?_⟩
  unfold pairPoints at hp
  rw [if_pos hlt] at hp
  obtain rfl := List.mem_singleton.mp hp
  show (nlen : Int) + vlen < 2 ^ 31
  omega

/-- The sum of the lengths overflows. -/
theorem round_overflow (h : lenField ahead content = .read nlen content₁)
    (h' : lenField ahead content₁ = .read vlen content₂) (hsum : 2 ^ 31 ≤ nlen + vlen) (t : Bytes)
    (c : Client) : ∃ p ∈ stepPoints (.at ahead content t c), ¬ p.Inside t := by
  by_contra hall
  have hall' : ∀ p ∈ stepPoints (.at ahead content t c), p.Inside t :=
    fun p hp => not_not.mp fun hin => hall ⟨p, hp, hin⟩
  have hin := (stepPoints_read h h' t c).mp hall' _ (List.mem_cons_self ..)
  have hlt : (nlen : Int) + vlen < 2 ^ 31 := hin
  omega

/-- The pair is longer than what is left, and `fcg_toread` is too far ahead to show it. -/
theorem round_beyond (h : lenField ahead content = .read nlen content₁)
    (h' : lenField ahead content₁ = .read vlen content₂) (hsum : nlen + vlen < 2 ^ 31)
    (hle : nlen + vlen ≤ content₂.length + ahead) (hlong : content₂.length < nlen + vlen)
    (ht : t ≠ []) (c : Client) : ∃ p ∈ stepPoints (.at ahead content t c), ¬ p.Inside t := by
  by_contra hall
  have hall' : ∀ p ∈ stepPoints (.at ahead content t c), p.Inside t :=
    fun p hp => not_not.mp fun hin => hall ⟨p, hp, hin⟩
  have hpoints := (stepPoints_read h h' t c).mp hall'
  have hpos := List.length_pos_iff.mpr ht
  have hint : int32 ((nlen : Int) + vlen) = nlen + vlen := int32_of_lt (by omega) (by omega)
  have hge : ¬ ((content₂.length + ahead : Nat) : Int) < int32 ((nlen : Int) + vlen) := by
    rw [hint]
    omega
  unfold pairPoints at hpoints
  dsimp only at hpoints
  rw [if_neg hge] at hpoints
  split at hpoints
  · -- drained at once
    have hin := (hpoints _ (List.mem_cons_of_mem _ (List.mem_singleton.mpr rfl))).2
    have hsize : sizeT (int32 ((nlen : Int) + vlen)) = nlen + vlen := by
      rw [hint, sizeT]
      omega
    rw [hsize, evbufferDrain, List.length_drop, List.length_append] at hin
    omega
  · have hin := (hpoints (.reads _ _)
      (List.mem_cons_of_mem _ (List.mem_cons_of_mem _ (List.mem_singleton.mpr rfl)))).2
    rw [List.length_drop, List.length_drop, List.length_append] at hin
    omega

/-- The pair is all there. -/
theorem round_next (h : lenField ahead content = .read nlen content₁)
    (h' : lenField ahead content₁ = .read vlen content₂) (hfit : nlen + vlen ≤ content₂.length)
    (hbound : 2 * content.length + ahead ≤ 131070) (t : Bytes) (c : Client) :
    (∃ c', paramStep env (.at ahead content t c) = (true, .at
      (if 31 < nlen then ahead + 2 * vlen else ahead) (content₂.drop (nlen + vlen)) t c')) ∧
      ∀ p ∈ stepPoints (.at ahead content t c), p.Inside t := by
  obtain ⟨-, -, hless, -⟩ := parseLen_read h t
  obtain ⟨-, -, hless', -⟩ := parseLen_read h' t
  obtain ⟨-, hlong, hshort⟩ := paramStep_read env h h' t c
  have hint : int32 ((nlen : Int) + vlen) = nlen + vlen := int32_of_lt (by omega) (by omega)
  have hsize : sizeT (int32 ((nlen : Int) + vlen)) = nlen + vlen := by
    rw [hint, sizeT]
    omega
  have hge : ¬ ((content₂.length + ahead : Nat) : Int) < int32 ((nlen : Int) + vlen) := by
    rw [hint]
    omega
  have hdrop : (content₂ ++ t).drop (nlen + vlen) = content₂.drop (nlen + vlen) ++ t :=
    List.drop_append_of_le_length hfit
  have hcount : int32 ((content₂.length + ahead : Nat) - ((nlen : Int) - vlen))
      = (((content₂.drop (nlen + vlen)).length + (ahead + 2 * vlen) : Nat) : Int) := by
    rw [int32_of_lt (by omega) (by omega), List.length_drop]
    omega
  have hcount' : int32 ((content₂.length + ahead : Nat) - (nlen : Int) - vlen)
      = (((content₂.drop (nlen + vlen)).length + ahead : Nat) : Int) := by
    rw [int32_of_lt (by omega) (by omega), List.length_drop]
    omega
  have hlen : t.length ≤ ((content₂ ++ t).drop (nlen + vlen)).length := by
    rw [hdrop, List.length_append]
    omega
  constructor
  · by_cases hl : 31 < nlen
    · exact ⟨c, by rw [hlong hge hl, if_pos hl, hcount, hsize, evbufferDrain, hdrop, ParamSt.at]⟩
    · exact ⟨_, by rw [hshort hge hl, if_neg hl, hcount', List.drop_drop, hdrop, ParamSt.at]⟩
  · refine (stepPoints_read h h' t c).mpr fun p hp => ?_
    unfold pairPoints at hp
    dsimp only at hp
    rw [if_neg hge] at hp
    rcases List.mem_cons.mp hp with rfl | hp
    · show (nlen : Int) + vlen < 2 ^ 31
      omega
    split at hp
    · obtain rfl := List.mem_singleton.mp hp
      refine ⟨?_, ?_⟩
      · rw [hcount]
        exact Int.natCast_nonneg _
      · rw [hsize, evbufferDrain]
        exact hlen
    · rcases List.mem_cons.mp hp with rfl | hp
      · refine ⟨?_, ?_⟩
        · rw [int32_of_lt (by omega) (by omega)]
          omega
        · simp only [Int.toNat_natCast, List.length_drop, List.length_append]
          omega
      · obtain rfl := List.mem_singleton.mp hp
        refine ⟨?_, ?_⟩
        · rw [hcount']
          exact Int.natCast_nonneg _
        · simp only [Int.toNat_natCast, List.drop_drop]
          exact hlen

end Rounds

/-- What a round can come to, and what `contained` says of it. -/
inductive RoundCase (env : Env) (n ahead : Nat) (content t : Bytes) (c : Client) : Prop
  | last (hcont : contained (n + 1) ahead content = true)
      (hstep : (paramStep env (.at ahead content t c)).1 = false)
      (hpoints : ∀ p ∈ stepPoints (.at ahead content t c), p.Inside t)
  | leaves (hcont : contained (n + 1) ahead content = false)
      (hpoint : t ≠ [] → ∃ p ∈ stepPoints (.at ahead content t c), ¬ p.Inside t)
  | next (ahead' : Nat) (content' : Bytes) (c' : Client)
      (hcont : contained (n + 1) ahead content = contained n ahead' content')
      (hstep : paramStep env (.at ahead content t c) = (true, .at ahead' content' t c'))
      (hpoints : ∀ p ∈ stepPoints (.at ahead content t c), p.Inside t)
      (hless : content'.length < content.length)
      (hbound : 2 * content'.length + ahead' ≤ 131070)

theorem round_cases (env : Env) (n : Nat) (hne : content ≠ [])
    (hbound : 2 * content.length + ahead ≤ 131070) (t : Bytes) (c : Client) :
    RoundCase env n ahead content t c := by
  have hcont : contained (n + 1) ahead content = contained (n + 1) ahead content := rfl
  conv_rhs at hcont => rw [contained, if_neg hne]
  cases hfield : lenField ahead content with
  | outside =>
    rw [hfield] at hcont
    refine .leaves hcont fun ht => ?_
    obtain ⟨p, hp, hin⟩ := parseLen_outside hfield ht
    exact ⟨p, List.mem_append_left _ hp, hin⟩
  | refused =>
    rw [hfield] at hcont
    obtain ⟨hstep, hpoints⟩ := round_refused env hfield t c
    exact .last hcont hstep hpoints
  | read nlen content₁ =>
    obtain ⟨hn, -, hless, -⟩ := parseLen_read hfield t
    rw [hfield] at hcont
    dsimp only at hcont
    cases hfield' : lenField ahead content₁ with
    | outside =>
      rw [hfield'] at hcont
      refine .leaves hcont fun ht => ?_
      obtain ⟨p, hp, hin⟩ := parseLen_outside hfield' ht
      refine ⟨p, List.mem_append_right _ ?_, hin⟩
      rw [ParamSt.at, hn, if_neg (by dsimp only; omega)]
      exact List.mem_append_left _ hp
    | refused =>
      rw [hfield'] at hcont
      obtain ⟨hstep, hpoints⟩ := round_refused' env hfield hfield' t c
      exact .last hcont hstep hpoints
    | read vlen content₂ =>
      obtain ⟨-, -, hless', -⟩ := parseLen_read hfield' t
      rw [hfield'] at hcont
      dsimp only at hcont
      by_cases hsum : 2 ^ 31 ≤ nlen + vlen
      · rw [if_pos hsum] at hcont
        exact .leaves hcont fun _ => round_overflow hfield hfield' hsum t c
      rw [if_neg hsum] at hcont
      by_cases hlong : content₂.length + ahead < nlen + vlen
      · rw [if_pos hlong] at hcont
        obtain ⟨hstep, hpoints⟩ := round_rejected env hfield hfield' (by omega) hlong t c
        exact .last hcont hstep hpoints
      rw [if_neg hlong] at hcont
      by_cases hfit : content₂.length < nlen + vlen
      · rw [if_pos hfit] at hcont
        exact .leaves hcont fun ht =>
          round_beyond hfield hfield' (by omega) (by omega) hfit ht c
      rw [if_neg hfit] at hcont
      obtain ⟨⟨c', hstep⟩, hpoints⟩ := round_next env hfield hfield' (by omega) hbound t c
      refine .next _ _ c' hcont hstep hpoints ?_ ?_
      · rw [List.length_drop]
        omega
      · rw [List.length_drop]
        split <;> omega

/-! ## The whole record -/

theorem at_nil (env : Env) (t : Bytes) (c : Client) (m : Nat) :
    loopPoints env (m + 1) (.at 0 [] t c) = [] ∧
      paramLoop env (m + 1) (.at 0 [] t c) = (true, ⟨0, t, c⟩) := ⟨rfl, rfl⟩

theorem at_toread_pos (hne : content ≠ []) (t : Bytes) (c : Client) :
    ¬ (ParamSt.at ahead content t c).toread ≤ 0 := by
  have hpos := List.length_pos_iff.mpr hne
  show ¬ ((content.length + ahead : Nat) : Int) ≤ 0
  omega

/-- **A record that can be walked along** is not left. -/
theorem inside_of_contained (env : Env) {n ahead : Nat} (h : contained n ahead content = true)
    (hbound : 2 * content.length + ahead ≤ 131070) (t : Bytes) (c : Client) (m : Nat) :
    (∀ p ∈ loopPoints env m (.at ahead content t c), p.Inside t) ∧
      ∀ s, paramLoop env m (.at ahead content t c) = (true, s) → s.toread = 0 ∧ s.src = t := by
  induction m generalizing n ahead content c with
  | zero => exact ⟨fun p hp => (by cases hp), fun s hs => (by cases hs)⟩
  | succ m ih =>
    cases n with
    | zero => cases h
    | succ n =>
      by_cases hnil : content = []
      · subst hnil
        rw [contained, if_pos rfl, decide_eq_true_eq] at h
        subst h
        obtain ⟨hpoints, hloop⟩ := at_nil env t c m
        rw [hpoints, hloop]
        exact ⟨fun p hp => (by cases hp), fun s hs => (by cases hs; exact ⟨rfl, rfl⟩)⟩
      · have hmore := @at_toread_pos content ahead hnil t c
        rw [loopPoints, paramLoop, if_neg hmore, if_neg hmore]
        cases round_cases env n hnil hbound t c with
        | last hcont hstep hpoints =>
          generalize paramStep env (.at ahead content t c) = r at hstep
          obtain ⟨_ | _, s'⟩ := r
          · exact ⟨by simpa using hpoints, fun s hs => (by cases hs)⟩
          · cases hstep
        | leaves hcont hpoint =>
          rw [h] at hcont
          cases hcont
        | next ahead' content' c' hcont hstep hpoints hless hbound' =>
          obtain ⟨hrest, hres⟩ := ih (hcont.symm.trans h) hbound' c'
          rw [hstep]
          exact ⟨List.forall_mem_append.mpr ⟨hpoints, hrest⟩, hres⟩

/-- **A record that cannot** is left, if there is anything behind it. -/
theorem outside_of_not_contained (env : Env) {n ahead : Nat}
    (h : contained n ahead content = false) (hn : content.length < n)
    (hbound : 2 * content.length + ahead ≤ 131070) {t : Bytes} (ht : t ≠ []) (c : Client) :
    ∃ p ∈ loopPoints env n (.at ahead content t c), ¬ p.Inside t := by
  induction n generalizing ahead content c with
  | zero => omega
  | succ n ih =>
    by_cases hnil : content = []
    · -- the record is at its end, and `fcg_toread` is not
      subst hnil
      rw [contained, if_pos rfl, decide_eq_false_iff_not] at h
      have hmore : ¬ (ParamSt.at ahead [] t c).toread ≤ 0 := by
        show ¬ ((0 + ahead : Nat) : Int) ≤ 0
        omega
      obtain ⟨p, hp, hin⟩ := @parseLen_outside [] ahead rfl t ht
      refine ⟨p, ?_, hin⟩
      rw [loopPoints, if_neg hmore]
      exact List.mem_append_left _ (List.mem_append_left _ hp)
    · rw [loopPoints, if_neg (at_toread_pos hnil t c)]
      cases round_cases env n hnil hbound t c with
      | last hcont hstep hpoints =>
        rw [h] at hcont
        cases hcont
      | leaves hcont hpoint =>
        obtain ⟨p, hp, hin⟩ := hpoint ht
        exact ⟨p, List.mem_append_left _ hp, hin⟩
      | next ahead' content' c' hcont hstep hpoints hless hbound' =>
        obtain ⟨p, hp, hin⟩ := ih (hcont.symm.trans h) (by omega) hbound' c'
        refine ⟨p, List.mem_append_right _ ?_, hin⟩
        rw [hstep]
        exact hp

/-- **Parameters stay inside their record**, whatever stands behind it, exactly when the record can
be walked along. -/
theorem record_kept_inside_iff (env : Env) (content : Bytes) (hlen : content.length ≤ 65535)
    (c : Client) :
    (∀ behind, KeepsInside env content behind c) ↔
      contained (content.length + 1) 0 content = true := by
  have hbound : 2 * content.length + 0 ≤ 131070 := by omega
  constructor
  · intro h
    by_contra hcont
    obtain ⟨p, hp, hin⟩ := outside_of_not_contained env (Bool.eq_false_iff.mpr hcont)
      (Nat.lt_succ_self _) hbound (List.cons_ne_nil 0 []) c
    exact hin ((h [0]).points _ p hp)
  · intro h behind
    refine ⟨?_, fun m => (inside_of_contained env h hbound behind c m).1,
      fun s hs => (inside_of_contained env h hbound behind c _).2 s hs⟩
    exact fcgiParseParams_ends env (s := ⟨content.length, content ++ behind, c⟩)
      (by dsimp only; omega)

/-- One pair, and one that is cut in its name. -/
theorem cut_name_kept_inside :
    let content : Bytes := [1, 1, 65, 98, 5, 0, 66]
    ∀ behind, KeepsInside ⟨[], 255, 1024⟩ content behind (Client.new 1 0) := by
  intro content
  exact (record_kept_inside_iff ⟨[], 255, 1024⟩ content (by decide) (Client.new 1 0)).mpr
    (by decide)

/-- Three records that are left: a name's length alone, for which `fcg_toread` is -1; two lengths
that add up to `2 ^ 31`; and a name of 32 bytes with a value, behind which a byte more is taken. -/
theorem records_left :
    let points (content : Bytes) := loopPoints ⟨[], 255, 1024⟩ 3
      ⟨content.length, content ++ [7], Client.new 1 0⟩
    .reads (-1) [] ∈ points [1] ∧
      .sum (2 ^ 31) ∈ points [255, 255, 255, 255, 1] ∧
      .reads 1 [] ∈ points ([32, 1] ++ List.replicate 33 65) := by
  decide

end Galileo
