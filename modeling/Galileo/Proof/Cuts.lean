import Galileo.Proof.Framing
import Galileo.Proof.Pairs

/-!
# Where the stream of parameters is cut

To FastCGI the records of type `FCGI_PARAMS` are one stream, and where it is cut into records means
nothing. `fcgi_parse_params` keeps no state from one record to the next: a record that ends inside a
pair — in a length, a name or a value — is an error to it, and the connection is torn down. So two
ways to cut a list of pairs come to the same exactly when both, or neither, cut between pairs only.
-/

set_option autoImplicit false

namespace Galileo

open Lib Lib.FastCgi Lib.Run

variable {ps : List (Bytes × Bytes)} {stales : List (Bytes × Bytes)} {p : Bytes × Bytes}
  {rs : List Record} {q q' : Bytes} {rest : Bytes} {f : Fcgi} {id : UInt16} {c : Client}

/-! ## A pair that is cut -/

/-- Lengths that do not overflow an `int`, and that are counted right. -/
structure Orderly (p : Bytes × Bytes) : Prop where
  countable : Countable p
  lengths : p.1.length + p.2.length + 127 < 2 ^ 31

theorem parseLen_cut {n : Nat} (hn : n < 2 ^ 31) (h : q ++ q' = encodeLen n) (hq : q ≠ [])
    (hq' : q' ≠ []) (t : Bytes) : (parseLen q.length (q ++ t)).len = -1 := by
  have hlen := congrArg List.length h
  have hpos := List.length_pos_iff.mpr hq
  have hpos' := List.length_pos_iff.mpr hq'
  rw [encodeLen] at h hlen
  rw [List.length_append] at hlen
  split at h
  · rename_i hshort
    rw [if_pos hshort, List.length_singleton] at hlen
    omega
  · rename_i hlong
    rw [if_neg hlong] at hlen
    simp only [List.length_cons, List.length_nil] at hlen
    cases q with
    | nil => exact absurd rfl hq
    | cons b q =>
      obtain ⟨rfl, -⟩ := List.cons.inj h
      have htop : ¬ (UInt8.ofNat (128 + n / 2 ^ 24)).toNat >>> 7 = 0 := by
        rw [UInt8.toNat_ofNat', Nat.shiftRight_eq_div_pow]
        omega
      rw [List.length_cons] at hlen
      unfold parseLen
      dsimp only [List.cons_append, List.headD_cons]
      rw [if_neg htop, if_pos (by rw [List.length_cons]; omega)]

/-- A record that ends behind the length of a name. -/
theorem rejects_zero {n : Nat} (hn : n + 127 < 2 ^ 31) (toread : Int) (src t : Bytes) :
    Rejects ⟨n, toread, src⟩ (parseLen 0 t) := by
  rcases parseLen_zero t with hneg | ⟨hv, htr⟩
  · exact .inr (.inl (by omega))
  · by_cases hneg : (parseLen 0 t).len < 0
    · exact .inr (.inl hneg)
    · refine .inr (.inr ?_)
      dsimp only
      rw [htr, int32_of_lt (by omega) (by omega)]
      omega

/-- A record that ends inside the name or the value. -/
theorem paramStep_short (env : Env) (hp : Orderly p) {q : Bytes}
    (hq : q.length < p.1.length + p.2.length) (t : Bytes) (c : Client) :
    (paramStep env ⟨(encodeLen p.1.length ++ (encodeLen p.2.length ++ q)).length,
      encodeLen p.1.length ++ (encodeLen p.2.length ++ (q ++ t)), c⟩).1 = false := by
  have hsmall := hp.lengths
  have hn := parseLen_encode (n := p.1.length) (by omega)
    (t := ((encodeLen p.1.length ++ (encodeLen p.2.length ++ q)).length : Nat))
    (by rw [List.length_append]; omega) (encodeLen p.2.length ++ (q ++ t))
  have hv := parseLen_encode (n := p.2.length) (by omega)
    (t := ((encodeLen p.1.length ++ (encodeLen p.2.length ++ q)).length : Nat)
      - (encodeLen p.1.length).length)
    (by simp only [List.length_append]; omega) (q ++ t)
  refine paramStep_rejects (s := ⟨_, _, c⟩) hn hv (.inr (.inr ?_))
  dsimp only
  rw [int32_of_lt (by omega) (by omega)]
  simp only [List.length_append]
  omega

/-- **A pair that is cut is an error.** -/
theorem paramStep_cut (env : Env) (hp : Orderly p) (h : q ++ q' = encodePair p) (hq : q ≠ [])
    (hq' : q' ≠ []) (t : Bytes) (c : Client) :
    (paramStep env ⟨q.length, q ++ t, c⟩).1 = false := by
  have hsmall := hp.lengths
  have hn : p.1.length < 2 ^ 31 := by omega
  have hv : p.2.length < 2 ^ 31 := by omega
  have hlen' := List.length_pos_iff.mpr hq'
  rw [encodePair] at h
  rcases List.append_eq_append_iff.mp h with ⟨as, has, -⟩ | ⟨bs, rfl, hbs⟩
  · by_cases hnil : as = []
    · -- behind the first length
      rw [hnil, List.append_nil] at has
      have hlen := parseLen_encode hn (t := q.length) (Int.le_of_eq (by rw [has])) t
      rw [has, Int.sub_self] at hlen
      exact paramStep_rejects (s := ⟨q.length, q ++ t, c⟩) hlen rfl (rejects_zero (by omega) _ _ _)
    · refine paramStep_rejects rfl rfl (.inl ?_)
      dsimp only
      rw [parseLen_cut hn has.symm hq hnil t]
      decide
  · have hlen : parseLen ((encodeLen p.1.length ++ bs).length : Nat)
        ((encodeLen p.1.length ++ bs) ++ t) = ⟨p.1.length, bs.length, bs ++ t⟩ := by
      rw [List.append_assoc, parseLen_encode hn (by rw [List.length_append]; omega),
        List.length_append]
      congr 1
      omega
    rcases List.append_eq_append_iff.mp hbs.symm with ⟨as, has, hq's⟩ | ⟨ds, rfl, hds⟩
    · by_cases hnil : bs = []
      · subst hnil
        exact paramStep_rejects (s := ⟨_, _, c⟩) hlen rfl (rejects_zero (by omega) _ _ _)
      by_cases hnil' : as = []
      · -- behind both lengths
        rw [hnil', List.append_nil] at has
        rw [hnil', List.nil_append] at hq's
        rw [hq's, List.length_append] at hlen'
        have hshort := paramStep_short env hp (q := []) hlen' t c
        rwa [List.append_nil, List.nil_append, has, ← List.append_assoc] at hshort
      · refine paramStep_rejects (s := ⟨_, _, c⟩) hlen rfl (.inr (.inl ?_))
        dsimp only
        rw [parseLen_cut hv has.symm hnil hnil' t]
        decide
    · have hds' := congrArg List.length hds
      rw [List.length_append, List.length_append] at hds'
      have hshort := paramStep_short env hp (q := ds) (by omega) t c
      simpa only [List.append_assoc] using hshort

/-- A record that ends inside a pair. -/
theorem fcgiParseParams_cut (env : Env) (hps : ∀ p ∈ ps, Countable p) (hp : Orderly p)
    (h : q ++ q' = encodePair p) (hq : q ≠ []) (hq' : q' ≠ [])
    (hlen : (ps.flatMap encodePair ++ q).length ≤ 65535) (t : Bytes) (c : Client) :
    (fcgiParseParams env
      ⟨(ps.flatMap encodePair ++ q).length, ps.flatMap encodePair ++ q ++ t, c⟩).1 = false := by
  have hpos := List.length_pos_iff.mpr hq
  rw [List.length_append] at hlen ⊢
  obtain ⟨n, hn⟩ := fcgiParseParams_pairs env hps hlen (q ++ t) c
  have hstep := paramStep_cut env hp h hq hq' t (ps.foldl (Client.taught env) c)
  rw [List.append_assoc, hn, paramLoop, if_neg (by dsimp only; omega)]
  generalize paramStep env ⟨q.length, q ++ t, ps.foldl (Client.taught env) c⟩ = r at hstep
  obtain ⟨_ | _, s⟩ := r
  · rfl
  · cases hstep

/-! ## Cuts -/

/-- Every record has whole pairs. -/
inductive Aligned : List Bytes → List (Bytes × Bytes) → Prop
  | nil : Aligned [] []
  | cons {ps ps' : List (Bytes × Bytes)} {cut : List Bytes} (h : Aligned cut ps') :
      Aligned (ps.flatMap encodePair :: cut) (ps ++ ps')

/-- The first part of a stream of pairs ends between two pairs or inside one. -/
theorem prefix_cases {content rest : Bytes} (h : content ++ rest = ps.flatMap encodePair) :
    (∃ ps₁ ps₂, ps = ps₁ ++ ps₂ ∧ content = ps₁.flatMap encodePair ∧
      rest = ps₂.flatMap encodePair) ∨
    ∃ ps₁ p ps₂ q q', ps = ps₁ ++ p :: ps₂ ∧ content = ps₁.flatMap encodePair ++ q ∧
      q ++ q' = encodePair p ∧ q ≠ [] ∧ q' ≠ [] := by
  induction ps generalizing content with
  | nil =>
    obtain ⟨rfl, rfl⟩ := List.append_eq_nil_iff.mp h
    exact .inl ⟨[], [], rfl, rfl, rfl⟩
  | cons p ps ih =>
    rw [List.flatMap_cons] at h
    rcases List.append_eq_append_iff.mp h with ⟨q', hq, hrest⟩ | ⟨content', rfl, hrest⟩
    · by_cases hq' : q' = []
      · subst hq'
        rw [List.append_nil] at hq
        exact .inl ⟨[p], ps, rfl, by simp [hq], by simpa using hrest⟩
      by_cases hcontent : content = []
      · subst hcontent
        exact .inl ⟨[], p :: ps, rfl, rfl, by rw [List.flatMap_cons]; exact h⟩
      · exact .inr ⟨[], p, ps, content, q', rfl, rfl, hq.symm, hcontent, hq'⟩
    · rcases ih hrest.symm with ⟨ps₁, ps₂, rfl, rfl, hr⟩ | ⟨ps₁, p', ps₂, q, q', rfl, rfl, hq⟩
      · exact .inl ⟨p :: ps₁, ps₂, rfl, rfl, hr⟩
      · exact .inr ⟨p :: ps₁, p', ps₂, q, q', rfl, by simp, hq⟩

/-- A list of pairs, cut into records of one id that are not empty. -/
structure Cut (id : UInt16) (ps : List (Bytes × Bytes)) (rs : List Record) : Prop where
  type : ∀ r ∈ rs, r.type = params
  id : ∀ r ∈ rs, r.id = id
  content : ∀ r ∈ rs, r.content ≠ []
  whole : (rs.map Record.content).flatten = ps.flatMap encodePair

/-! ## On the connection -/

/-- The connection between two records, with a client of this id. -/
structure Fcgi.Between (f : Fcgi) (id : UInt16) (c : Client) (input : Bytes) : Prop where
  closed : f.closed = false
  want : f.fcgWant = .header
  toread : f.fcgToread = 8
  input : f.input = input
  find : f.find id.toUInt32 = some c

/-- `fcgi_read` takes this many records; with what its variables hold at each turn. -/
def reads (stales : List (Bytes × Bytes)) : List Event :=
  stales.flatMap fun stale => [.read stale.1, .read stale.2]

theorem run_closed (env : Env) (h : f.closed = true) (es : List Event) : run env f es = f := by
  induction es with
  | nil => rfl
  | cons e es ih =>
    have hstep : step env f e = f := by rw [step, if_pos h]
    show run env (step env f e) es = f
    rw [hstep, ih]

section Record

variable (env : Env) {r : Record}

/-- A record with parameters is taken. -/
theorem run_params (hf : f.Between r.id c (r.encode ++ rest)) (htype : r.type = params)
    (hcontent : r.content ≠ []) (stale : Bytes × Bytes) :
    let behind := r.padding ++ (rest ++ stale.2)
    let g := run env f [.read stale.1, .read stale.2]
    (∀ c', fcgiParseParams env ⟨r.content.length, r.content ++ behind, c⟩
      = (true, ⟨0, behind, c'⟩) →
      g.Between r.id c' rest) ∧
    ((fcgiParseParams env ⟨r.content.length, r.content ++ behind, c⟩).1 = false →
      g.closed = true ∧ g.find r.id.toUInt32 = none) := by
  intro behind g
  have hg :
      g = (readParams env stale.2
      ((f.announced r rest).observe (f.announced r rest).record)).fcgi := by
    show step env (step env f (.read stale.1)) (.read stale.2) = _
    rw [step_header hf.closed hf.want hf.toread hf.input, step_announced hf.closed, readBody_eq]
    have ht : (f.announced r rest).fcgType = params := htype
    rw [if_neg (by rw [ht]; decide), if_pos ht]
  have hinput : (r.content ++ (r.padding ++ rest)) ++ stale.2 = r.content ++ behind := by
    simp only [behind, List.append_assoc]
  have hlen : ¬ (r.content.length : Int) = 0 := by
    have := List.length_pos_iff.mpr hcontent
    omega
  obtain ⟨res, hres, hlearnt, heq⟩ := readParams_content env stale.2
    (g := (f.announced r rest).observe (f.announced r rest).record) (c := c) hf.find hlen
  have hres' : res = fcgiParseParams env ⟨r.content.length, r.content ++ behind, c⟩ := by
    rw [hres, ← hinput]
    rfl
  rw [hg, heq, ← hres']
  constructor
  · rintro c' rfl
    have hused : (r.content ++ behind).length - behind.length = r.content.length := by
      rw [List.length_append]
      omega
    have hid : c'.cltId = r.id.toUInt32 := hlearnt.id.trans (f.cltId_of_find hf.find)
    rw [if_pos rfl]
    refine ⟨hf.closed, rfl, rfl, ?_, ?_⟩
    · show ((r.content ++ (r.padding ++ rest)).drop
        (((r.content ++ (r.padding ++ rest)) ++ stale.2).length - behind.length)).drop
          r.padding.length
          = rest
      rw [hinput, hused, List.drop_left, List.drop_left]
    · show (Fcgi.store f c').find r.id.toUInt32 = some c'
      rw [Fcgi.find_store, if_pos hid, hf.find]
      rfl
  · intro hfalse
    rw [if_neg (by rw [hfalse]; decide)]
    exact ⟨rfl, rfl⟩

end Record

theorem run_reads_cons (env : Env) (f : Fcgi) (stale : Bytes × Bytes) :
    run env f (reads (stale :: stales))
      = run env (run env f [.read stale.1, .read stale.2]) (reads stales) := rfl

/-- **Cut between pairs**, the stream is read as if it were one. -/
theorem run_aligned (env : Env) (h : Aligned (rs.map Record.content) ps)
    (hps : ∀ p ∈ ps, Orderly p) (htype : ∀ r ∈ rs, r.type = params) (hid : ∀ r ∈ rs, r.id = id)
    (hcontent : ∀ r ∈ rs, r.content ≠ []) (hf : f.Between id c (rs.flatMap Record.encode ++ rest))
    (hstales : stales.length = rs.length) :
    (run env f (reads stales)).Between id (ps.foldl (Client.taught env) c) rest := by
  induction rs generalizing f c ps stales with
  | nil =>
    cases h
    cases List.eq_nil_of_length_eq_zero hstales
    exact hf
  | cons r rs ih =>
    cases stales with
    | nil => cases hstales
    | cons stale stales =>
      have hcons : (r :: rs).map Record.content = r.content :: rs.map Record.content := rfl
      rw [hcons] at h
      generalize hcr : r.content = content at h
      cases h with
      | @cons ps₁ ps₂ _ h =>
        obtain rfl := hid r (by simp)
        rw [List.flatMap_cons, List.append_assoc] at hf
        have hle := r.content_le
        rw [hcr] at hle
        have hparse := @fcgiParseParams_countable ps₁ env
          (fun p hp => (hps p (by simp [hp])).countable) hle
          (r.padding ++ ((rs.flatMap Record.encode ++ rest) ++ stale.2)) c
        rw [← hcr] at hparse
        have hnext := (run_params env hf (htype r (by simp)) (hcontent r (by simp))
          stale).1 _ hparse
        rw [run_reads_cons, List.foldl_append]
        exact ih h (fun p hp => hps p (by simp [hp])) (fun r hr => htype r (by simp [hr]))
          (fun r hr => hid r (by simp [hr])) (fun r hr => hcontent r (by simp [hr])) hnext
          (Nat.succ.inj hstales)

/-- **Cut inside a pair**, the stream is an error. -/
theorem run_not_aligned (env : Env) (hcut : Cut id ps rs)
    (h : ¬ Aligned (rs.map Record.content) ps) (hps : ∀ p ∈ ps, Orderly p)
    (hf : f.Between id c (rs.flatMap Record.encode ++ rest)) (hstales : stales.length = rs.length) :
    (run env f (reads stales)).closed = true ∧
      (run env f (reads stales)).find id.toUInt32 = none := by
  obtain ⟨htype, hid, hcontent, hwhole⟩ := hcut
  induction rs generalizing f c ps stales with
  | nil =>
    refine absurd ?_ h
    cases ps with
    | nil => exact .nil
    | cons p ps =>
      have hlen := congrArg List.length hwhole
      have hpos := encodePair_length_pos p
      rw [List.flatMap_cons, List.length_append] at hlen
      simp only [List.map_nil, List.flatten_nil, List.length_nil] at hlen
      omega
  | cons r rs ih =>
    cases stales with
    | nil => cases hstales
    | cons stale stales =>
      obtain rfl := hid r (by simp)
      have hle := r.content_le
      rw [List.flatMap_cons, List.append_assoc] at hf
      rw [List.map_cons, List.flatten_cons] at hwhole
      obtain ⟨hgood, hbad⟩ := run_params env hf (htype r (by simp)) (hcontent r (by simp))
        stale
      rw [run_reads_cons]
      rcases prefix_cases hwhole with ⟨ps₁, ps₂, rfl, hc, hrest⟩ | ⟨ps₁, p, ps₂, q, q', rfl, hc, hq⟩
      · rw [hc] at hgood hle
        have hnext := hgood _ (fcgiParseParams_countable env
          (fun p hp => (hps p (by simp [hp])).countable) hle _ c)
        refine ih (fun hal : Aligned (rs.map Record.content) ps₂ => h ?_)
          (fun p hp => hps p (by simp [hp])) hnext
          (Nat.succ.inj hstales) (fun r hr => htype r (by simp [hr]))
          (fun r hr => hid r (by simp [hr])) (fun r hr => hcontent r (by simp [hr])) hrest
        rw [List.map_cons, hc]
        exact .cons hal
      · rw [hc] at hbad hle
        have hgone := hbad (fcgiParseParams_cut env (fun p hp => (hps p (by simp [hp])).countable)
          (hps p (by simp)) hq.1 hq.2.1 hq.2.2 hle _ c)
        rw [run_closed env hgone.1]
        exact hgone

/-- What becomes of the connection. -/
theorem run_cut (env : Env) (hcut : Cut id ps rs) (hps : ∀ p ∈ ps, Orderly p)
    (hf : f.Between id c (rs.flatMap Record.encode ++ rest)) (hstales : stales.length = rs.length) :
    let g := run env f (reads stales)
    Aligned (rs.map Record.content) ps ∧ g.closed = false ∧
        g.find id.toUInt32 = some (ps.foldl (Client.taught env) c) ∨
      ¬ Aligned (rs.map Record.content) ps ∧ g.closed = true ∧ g.find id.toUInt32 = none := by
  intro g
  by_cases hal : Aligned (rs.map Record.content) ps
  · have hb := run_aligned env hal hps hcut.type hcut.id hcut.content hf hstales
    exact .inl ⟨hal, hb.closed, hb.find⟩
  · exact .inr ⟨hal, run_not_aligned env hcut hal hps hf hstales⟩

/-- **Two ways to cut a list of pairs** (that are counted right) come to the same, whatever stands
behind the records, exactly when both cut between pairs only or both cut inside one. -/
theorem cuts_agree_iff (env : Env) (f : Fcgi) (c : Client) (id : UInt16)
    (hopen : f.closed = false) (hwant : f.fcgWant = .header) (htoread : f.fcgToread = 8)
    (hfind : f.find id.toUInt32 = some c) (ps : List (Bytes × Bytes)) (hps : ∀ p ∈ ps, Orderly p)
    (rs rs' : List Record) (hcut : Cut id ps rs) (hcut' : Cut id ps rs') (rest rest' : Bytes)
    (stales stales' : List (Bytes × Bytes)) (hstales : stales.length = rs.length)
    (hstales' : stales'.length = rs'.length) :
    let g := run env { f with input := rs.flatMap Record.encode ++ rest } (reads stales)
    let g' := run env { f with input := rs'.flatMap Record.encode ++ rest' } (reads stales')
    g.closed = g'.closed ∧ g.find id.toUInt32 = g'.find id.toUInt32 ↔
      (Aligned (rs.map Record.content) ps ↔ Aligned (rs'.map Record.content) ps) := by
  intro g g'
  have hg := run_cut env hcut hps
    (f := { f with input := rs.flatMap Record.encode ++ rest })
    ⟨hopen, hwant, htoread, rfl, hfind⟩ hstales
  have hg' := run_cut env hcut' hps
    (f := { f with input := rs'.flatMap Record.encode ++ rest' })
    ⟨hopen, hwant, htoread, rfl, hfind⟩ hstales'
  rcases hg with ⟨hal, hclosed, hclt⟩ | ⟨hal, hclosed, hclt⟩ <;>
    rcases hg' with ⟨hal', hclosed', hclt'⟩ | ⟨hal', hclosed', hclt'⟩ <;>
    simp only [g, g', hclosed, hclosed', hclt, hclt', hal, hal', and_self, Bool.true_eq_false,
      Bool.false_eq_true, false_and, iff_false, not_true, iff_true]

/-- A connection on which the request with id 1 has begun. -/
def begunFcgi : Fcgi := run exampleEnv (Fcgi.new [] []) (Event.begin 1 1 1)

def paramsRecord (content : Bytes) (h : content.length ≤ 65535) : Record :=
  ⟨params, 1, content, [], h, by decide⟩

/-- The connection after these records, with nothing behind them. -/
def afterRecords (rs : List Record) : Fcgi :=
  run exampleEnv { begunFcgi with input := rs.flatMap Record.encode ++ [] }
    (reads (List.replicate rs.length ([], [])))

/-- Two pairs, in one record and in two. -/
theorem two_pairs_cut_between :
    let p := (lit "A", lit "b")
    let p' := (lit "SERVER_NAME", lit "h")
    let g := afterRecords [paramsRecord (encodePair p ++ encodePair p') (by decide)]
    let g' := afterRecords [paramsRecord (encodePair p) (by decide),
      paramsRecord (encodePair p') (by decide)]
    g.closed = g'.closed ∧ g.find 1 = g'.find 1 := by
  intro p p'
  have hps : ∀ q ∈ [p, p'], q.1.length ≤ 31 ∧ q.2.length ≤ 31 := by decide
  have h := cuts_agree_iff exampleEnv begunFcgi (Client.new 1 0) 1 (by decide) (by decide)
    (by decide) (by decide) [p, p']
    (fun q hq => ⟨.inl (hps q hq).1, by have := hps q hq; omega⟩)
    [paramsRecord (encodePair p ++ encodePair p') (by decide)]
    [paramsRecord (encodePair p) (by decide), paramsRecord (encodePair p') (by decide)]
    ⟨by decide, by decide, by decide, by decide⟩ ⟨by decide, by decide, by decide, by decide⟩
    [] [] [([], [])] [([], []), ([], [])] rfl rfl
  exact h.mpr (iff_of_true (@Aligned.cons [p, p'] [] [] .nil)
    (@Aligned.cons [p] [p'] _ (@Aligned.cons [p'] [] [] .nil)))

/-- One pair, in one record and cut behind its first byte. And two pairs of which the first has a
name of 32 bytes, in one record and in two. -/
theorem pair_cut_inside :
    let p := (lit "A", lit "b")
    let long := (List.replicate 32 65, lit "v")
    let p' := (lit "SERVER_NAME", lit "h")
    ((afterRecords [paramsRecord (encodePair p) (by decide)]).closed = false ∧
      (afterRecords [paramsRecord ((encodePair p).take 1) (by decide),
        paramsRecord ((encodePair p).drop 1) (by decide)]).closed = true) ∧
    (afterRecords [paramsRecord (encodePair long ++ encodePair p') (by decide)]).closed = false ∧
      (afterRecords [paramsRecord (encodePair long) (by decide),
        paramsRecord (encodePair p') (by decide)]).closed = true := by
  decide

end Galileo
