import Mathlib.Data.List.Induction
import Galileo.Proof.Pairs

/-!
# Decoding undoes encoding, but for long names

What a list of parameters *means* for a client is that of each parameter the proxy knows, the last
value that fits its buffer is stored (`decoded`). `fcgi_parse_params` computes just that, except in
two cases. A parameter whose name is too long for `pname` is to be ignored, and is counted wrongly
if it has a value: the parser then reads on behind the record. And a method that is neither GET nor
POST does not take back one that came before it.
-/

set_option autoImplicit false

namespace Galileo

open Lib Lib.FastCgi

variable {ps : List (Bytes × Bytes)} {p : Bytes × Bytes} {env : Env} {m : Method}

/-! ## What the parameters mean -/

/-- The parameters the proxy knows. -/
inductive Param where
  | serverName
  | scriptName
  | pathInfo
  | queryString
  | requestMethod
deriving DecidableEq

def Param.name : Param → Bytes
  | .serverName => lit "SERVER_NAME"
  | .scriptName => lit "SCRIPT_NAME"
  | .pathInfo => lit "PATH_INFO"
  | .queryString => lit "QUERY_STRING"
  | .requestMethod => lit "REQUEST_METHOD"

/-- The lengths of value its buffer has room for. -/
def Param.fits (env : Env) : Param → Nat → Bool
  | .serverName, n => n < env.hostNameMax + 1
  | .scriptName, n => n < env.pathMax
  | .pathInfo, n => n < env.pathMax
  | .queryString, n => n < geminiMaxlen && n > 0
  | .requestMethod, n => n < 8

/-- The pair is a value for the parameter that fits. -/
def Param.takes (env : Env) (k : Param) (p : Bytes × Bytes) : Bool :=
  p.1 == k.name && k.fits env p.2.length

/-- The last value that fits. -/
def Param.last (env : Env) (k : Param) (ps : List (Bytes × Bytes)) : Option Bytes :=
  (ps.reverse.find? (k.takes env)).map Prod.snd

def methodNamed (v : Bytes) : Method :=
  if caseEq v (lit "POST") then .post else if caseEq v (lit "GET") then .get else .unknown

/-- The client with these parameters and this method. -/
def decodedWith (env : Env) (ps : List (Bytes × Bytes)) (method : Method) (c : Client) : Client :=
  { c with
    cltServerName := (Param.serverName.last env ps).or c.cltServerName
    cltScriptName := ((Param.scriptName.last env ps).map fun v =>
      if v.getLast? == some 47 then v else v ++ lit "/").or c.cltScriptName
    cltPathInfo := ((Param.pathInfo.last env ps).map fun v =>
      if v.head? == some 47 then v else lit "/" ++ v).or c.cltPathInfo
    cltQuery := (Param.queryString.last env ps).or c.cltQuery
    cltMethod := method }

/-- The client with these parameters: of each, the last value that fits. -/
def decoded (env : Env) (ps : List (Bytes × Bytes)) (c : Client) : Client :=
  decodedWith env ps (((Param.requestMethod.last env ps).map methodNamed).getD c.cltMethod) c

/-! ## One parameter after the other -/

theorem Param.name_beq (k k' : Param) : (k.name == k'.name) = decide (k = k') := by
  cases k <;> cases k' <;> decide

theorem Param.last_concat (env : Env) (k : Param) (ps : List (Bytes × Bytes)) (p : Bytes × Bytes) :
    k.last env (ps ++ [p]) = if k.takes env p then some p.2 else k.last env ps := by
  rw [Param.last, List.reverse_concat, List.find?_cons]
  cases k.takes env p <;> rfl

/-- What `fcgi_parse_params` does with the value. -/
def Param.put : Param → Bytes → Client → Client
  | .serverName, v, c => { c with cltServerName := some (cstr v) }
  | .scriptName, v, c => { c with
      cltScriptName := some (if v.getLast? == some 47 then cstr v else cstr v ++ lit "/") }
  | .pathInfo, v, c => { c with
      cltPathInfo := some (if v.head? == some 47 then cstr v else lit "/" ++ cstr v) }
  | .queryString, v, c => { c with cltQuery := some (cstr v) }
  | .requestMethod, v, c => { c with
      cltMethod :=
        if caseEq (cstr v) (lit "POST") then .post
        else if caseEq (cstr v) (lit "GET") then .get
        else c.cltMethod }

/-- The chain of comparisons in `fcgi_parse_params`. -/
theorem paramStore_eq (env : Env) (p : Bytes × Bytes) :
    paramStore env p.1 p.2.length =
      if Param.serverName.takes env p then some Param.serverName.put
      else if Param.scriptName.takes env p then some Param.scriptName.put
      else if Param.pathInfo.takes env p then some Param.pathInfo.put
      else if Param.queryString.takes env p then some Param.queryString.put
      else if Param.requestMethod.takes env p then some Param.requestMethod.put
      else none := by
  simp only [paramStore, Param.takes, Param.name, Param.fits, Bool.and_assoc]
  rfl

/-- No pair is a value for two parameters. -/
theorem Param.takes_unique {k k' : Param} (h : k.takes env p = true) (hne : k ≠ k') :
    k'.takes env p = false := by
  rw [Param.takes, Bool.and_eq_true, beq_iff_eq] at h
  rw [Param.takes, h.1, Param.name_beq, decide_eq_false hne, Bool.false_and]

theorem given_of_takes {k : Param} (h : k.takes env p = true) (c : Client) :
    c.given env p = k.put p.2 c := by
  have hother (k' : Param) (hne : k ≠ k') := Param.takes_unique h hne
  rw [Client.given, paramStore_eq]
  cases k <;> simp [h, hother]

theorem given_of_not_takes (h : ∀ k : Param, k.takes env p = false) (c : Client) :
    c.given env p = c := by
  rw [Client.given, paramStore_eq]
  simp [h]

/-- The method after one more parameter: one that is not known is passed over. -/
def methodStep (env : Env) (m : Method) (p : Bytes × Bytes) : Method :=
  if Param.requestMethod.takes env p && methodNamed p.2 ≠ .unknown then methodNamed p.2 else m

theorem methodNamed_or (v : Bytes) (m : Method) :
    (if caseEq v (lit "POST") then .post else if caseEq v (lit "GET") then .get else m)
      = if methodNamed v = .unknown then m else methodNamed v := by
  unfold methodNamed
  split
  · rfl
  split <;> rfl

theorem given_decodedWith (env : Env) (ps : List (Bytes × Bytes)) (m : Method) (c : Client)
    (hp : 0 ∉ p.2) :
    (decodedWith env ps m c).given env p = decodedWith env (ps ++ [p]) (methodStep env m p) c := by
  have hv : cstr p.2 = p.2 := cstr_eq_self hp
  by_cases h : ∃ k : Param, k.takes env p = true
  · obtain ⟨k, hk⟩ := h
    have hother (k' : Param) (hne : k ≠ k') := Param.takes_unique hk hne
    rw [given_of_takes hk]
    cases k <;>
      simp [Param.put, decodedWith, methodStep, Param.last_concat, hk, hother, hv]
    -- the method is left
    exact methodNamed_or p.2 m
  · have hnone (k : Param) : k.takes env p = false :=
      Bool.eq_false_iff.mpr fun hk => h ⟨k, hk⟩
    rw [given_of_not_takes hnone]
    simp [decodedWith, methodStep, Param.last_concat, hnone]

/-- The parameters of a list, one after the other. -/
theorem foldl_given (env : Env) (hps : ∀ p ∈ ps, 0 ∉ p.2) (c : Client) :
    ps.foldl (Client.given env) c
      = decodedWith env ps (ps.foldl (methodStep env) c.cltMethod) c := by
  induction ps using List.reverseRecOn with
  | nil => simp [decodedWith, Param.last]
  | append_singleton ps p ih =>
    rw [List.foldl_concat, List.foldl_concat, ih fun q hq => hps q (by simp [hq])]
    exact given_decodedWith env ps _ c (hps p (by simp))

/-! ## The method -/

/-- The method is not known, as long as none was given that is. -/
theorem foldl_methodStep_unknown :
    ps.foldl (methodStep env) m = .unknown ↔ m = .unknown ∧
      ∀ p ∈ ps, Param.requestMethod.takes env p = true → methodNamed p.2 = .unknown := by
  induction ps generalizing m with
  | nil => simp
  | cons p ps ih =>
    rw [List.foldl_cons, ih, List.forall_mem_cons, ← and_assoc]
    refine and_congr_left fun _ => ?_
    rw [methodStep]
    by_cases htakes : Param.requestMethod.takes env p = true
    · by_cases hknown : methodNamed p.2 = .unknown <;> simp [htakes, hknown]
    · simp [htakes]

/-- The last method is the one that is stored, if it is known. -/
theorem foldl_methodStep_last {v : Bytes} (hlast : Param.requestMethod.last env ps = some v)
    (hv : methodNamed v ≠ .unknown) :
    ps.foldl (methodStep env) m = methodNamed v := by
  induction ps using List.reverseRecOn with
  | nil => cases hlast
  | append_singleton ps p ih =>
    rw [Param.last_concat] at hlast
    rw [List.foldl_concat, methodStep]
    split at hlast
    · rename_i htakes
      obtain rfl := Option.some.inj hlast
      rw [if_pos (by simp [htakes, hv])]
    · rename_i htakes
      rw [if_neg (by simp [htakes]), ih hlast]

theorem foldl_methodStep_none (hlast : Param.requestMethod.last env ps = none) :
    ps.foldl (methodStep env) m = m := by
  induction ps using List.reverseRecOn with
  | nil => rfl
  | append_singleton ps p ih =>
    rw [Param.last_concat] at hlast
    rw [List.foldl_concat, methodStep]
    split at hlast
    · cases hlast
    · rename_i htakes
      rw [if_neg (by simp [htakes]), ih hlast]

/-- If the last method is not one the proxy knows, none was known before. -/
def MethodStands (env : Env) (ps : List (Bytes × Bytes)) (m : Method) : Prop :=
  (Param.requestMethod.last env ps).any (fun v => methodNamed v == .unknown) = true →
    m = .unknown ∧
      ∀ p ∈ ps, Param.requestMethod.takes env p = true → methodNamed p.2 = .unknown

instance (env : Env) (ps : List (Bytes × Bytes)) (m : Method) : Decidable (MethodStands env ps m) :=
  inferInstanceAs (Decidable (_ = true → _ ∧ _))

theorem foldl_methodStep_iff (env : Env) (ps : List (Bytes × Bytes)) (m : Method) :
    ps.foldl (methodStep env) m = ((Param.requestMethod.last env ps).map methodNamed).getD m ↔
      MethodStands env ps m := by
  unfold MethodStands
  cases hlast : Param.requestMethod.last env ps with
  | none => simp [foldl_methodStep_none hlast]
  | some v =>
    by_cases hv : methodNamed v = .unknown
    · simp [hv, foldl_methodStep_unknown]
    · simp [hv, foldl_methodStep_last hlast hv]

/-! ## The record -/

theorem decodedWith_method_inj {m m' : Method} {c : Client} :
    decodedWith env ps m c = decodedWith env ps m' c ↔ m = m' :=
  ⟨fun h => congrArg Client.cltMethod h, fun h => by rw [h]⟩

/-- A name without a NUL that is too long for `pname` is none the proxy knows. -/
theorem taught_of_noNul (env : Env) (c : Client) (hname : 0 ∉ p.1) :
    c.taught env p = c.given env p := by
  rw [Client.taught, cstr_eq_self hname]
  split
  · rename_i hlong
    refine (given_of_not_takes (fun k => ?_) c).symm
    rw [Param.takes, Bool.and_eq_false_iff, beq_eq_false_iff_ne]
    refine .inl fun hk => ?_
    rw [hk] at hlong
    revert hlong
    cases k <;> decide
  · rfl

theorem foldl_taught (env : Env) (hps : ∀ p ∈ ps, 0 ∉ p.1 ∧ 0 ∉ p.2) (c : Client) :
    ps.foldl (Client.taught env) c
      = decodedWith env ps (ps.foldl (methodStep env) c.cltMethod) c := by
  rw [← foldl_given env fun p hp => (hps p hp).2]
  exact List.foldl_ext _ _ _ fun c p hp => taught_of_noNul env c (hps p hp).1

/-- A pair with too long a name and a value is counted wrongly. -/
theorem overruns_of_not_countable (env : Env) (hps : ¬ ∀ p ∈ ps, Countable p)
    (hlen : (ps.flatMap encodePair).length ≤ 65535) (s : Bytes) (c : Client) :
    (ParamSt.mk (ps.flatMap encodePair).length (ps.flatMap encodePair ++ s) c).overruns env
      = true := by
  suffices h : ∀ n, (ps.flatMap encodePair).length ≤ n →
      overrun env n ⟨(ps.flatMap encodePair).length, ps.flatMap encodePair ++ s, c⟩ = true from
    h _ (Nat.le_refl _)
  intro n hn
  induction ps generalizing c n with
  | nil => exact absurd (fun p hp => by cases hp) hps
  | cons p ps ih =>
    have hpos := encodePair_length_pos p
    rw [List.flatMap_cons, List.length_append] at hlen hn ⊢
    obtain ⟨n, rfl⟩ := Nat.exists_eq_succ_of_ne_zero (n := n) (by omega)
    rw [overrun, List.append_assoc, Bool.and_eq_true, Bool.or_eq_true]
    refine ⟨decide_eq_true (by dsimp only; omega), ?_⟩
    by_cases hp : Countable p
    · right
      rw [paramStep_pair env hp hlen]
      refine ih (fun hall => hps fun q hq => ?_) (by omega) _ n (by omega)
      rcases List.mem_cons.mp hq with rfl | hq
      · exact hp
      · exact hall q hq
    · left
      obtain ⟨m, hm, hmlen, hv⟩ := parseLen_encodePair hlen (ps.flatMap encodePair ++ s)
      simp only [Countable, not_or, Nat.not_le] at hp
      have hval : 0 < p.2.length := List.length_pos_iff.mpr hp.2
      have hle : p.1.length + p.2.length + (ps.flatMap encodePair).length ≤ 65535 := by
        rw [length_encodePair] at hlen
        omega
      refine decide_eq_true ?_
      rw [ParamSt.Defect, hm, hv, Defect]
      refine ⟨?_, .inr ⟨by rw [hmlen]; omega, by dsimp only; omega⟩⟩
      simp only [Rejects, hmlen, int32_of_lt (show (0 : Int) ≤ p.1.length + p.2.length by omega)
        (by omega)]
      omega

/-- **Decoding undoes encoding** exactly when no parameter has a name of more than 31 bytes and a
value, and no method the proxy does not know follows one that it knows. -/
theorem params_decoded_iff (env : Env) (ps : List (Bytes × Bytes))
    (hps : ∀ p ∈ ps, 0 ∉ p.1 ∧ 0 ∉ p.2) (hlen : (ps.flatMap encodePair).length ≤ 65535)
    (c : Client) :
    (∀ behind, fcgiParseParams env
        ⟨(ps.flatMap encodePair).length, ps.flatMap encodePair ++ behind, c⟩
      = (true, ⟨0, behind, decoded env ps c⟩)) ↔
    (∀ p ∈ ps, p.1.length ≤ 31 ∨ p.2 = []) ∧ MethodStands env ps c.cltMethod := by
  by_cases hcount : ∀ p ∈ ps, Countable p
  · refine Iff.trans ?_ (and_iff_right hcount).symm
    rw [← foldl_methodStep_iff env ps, ← decodedWith_method_inj (c := c), ← foldl_taught env hps]
    constructor
    · intro h
      have h := (fcgiParseParams_countable env hcount hlen [] c).symm.trans (h [])
      exact (congrArg (fun r => r.2.clt) h)
    · intro h behind
      rw [fcgiParseParams_countable env hcount hlen behind c, h]
      rfl
  · -- the parser does not stop where the record ends
    refine iff_of_false (fun h => ?_) fun h => hcount h.1
    have hover := fcgiParseParams_overrun env hlen [0] c
      (overruns_of_not_countable env hcount hlen [0] c) (by rw [h [0]])
    rw [h [0]] at hover
    simp at hover

def plainEnv : Env := ⟨[], 255, 1024⟩

/-- A script name, a parameter that is ignored, and a method. -/
theorem three_params_decoded :
    let ps := [(lit "SCRIPT_NAME", lit "/a"), (List.replicate 40 65, []),
      (lit "REQUEST_METHOD", lit "get")]
    (decoded plainEnv ps (Client.new 1 0)).cltScriptName = some (lit "/a/") ∧
      ∀ behind, fcgiParseParams plainEnv
          ⟨(ps.flatMap encodePair).length, ps.flatMap encodePair ++ behind, Client.new 1 0⟩
        = (true, ⟨0, behind, decoded plainEnv ps (Client.new 1 0)⟩) := by
  intro ps
  exact ⟨by decide, (params_decoded_iff plainEnv ps (by decide) (by decide) (Client.new 1 0)).mpr
    ⟨by decide, by decide⟩⟩

/-- A name of 32 bytes with a value of one, and the empty record behind it: the parser takes the
header of that record for a pair and gives up. And a HEAD that follows a GET leaves the GET. -/
theorem long_name_not_ignored :
    let long := [(List.replicate 32 65, lit "v")]
    let twice := [(lit "REQUEST_METHOD", lit "GET"), (lit "REQUEST_METHOD", lit "HEAD")]
    (fcgiParseParams plainEnv ⟨(long.flatMap encodePair).length,
        long.flatMap encodePair ++ [1, 4, 0, 1, 0, 0, 0, 0], Client.new 1 0⟩).1 = false ∧
      (fcgiParseParams plainEnv ⟨(twice.flatMap encodePair).length,
        twice.flatMap encodePair, Client.new 1 0⟩).2.clt.cltMethod = .get ∧
      (decoded plainEnv twice (Client.new 1 0)).cltMethod = .unknown := by
  decide

end Galileo
