import Galileo.Proof.Cuts
import Galileo.Proof.Forms

/-!
# The field of a form, record by record

`fcgi_parse_form` sees one record at a time. It looks for `q=` inside a record, never across two;
from there on it adds up pieces until one of them is cut at a `&` or a CR. The pieces of a form
(`fieldPieces`) say what is added up, and `Client.Holds` what the client's four variables then are:
the pieces together, or, when they had passed the limit *before the last of them came*, nothing but
the mark that there was too much.

That the limit is looked at when the next record comes, and only then, is what
`form_limit_iff` is about; that the name of the field must not be cut is what `form_cut_iff` says.
-/

set_option autoImplicit false

namespace Galileo

open Lib Lib.FastCgi Lib.Run

variable {ts : List Bytes} {c : Client}

/-! ## Pieces -/

/-- The C string `fcgi_parse_form` makes of a record. -/
def formTaken (content : Bytes) : Bytes := cstr (content.take 2047)

/-- What the records add to a field that has begun. -/
def morePieces : List Bytes → List Bytes
  | [] => []
  | t :: ts =>
      (cutForm (formTaken t)).1 :: if (cutForm (formTaken t)).2 then [] else morePieces ts

/-- The pieces of the field `q`, one for each record from the one with the name in it. -/
def fieldPieces : List Bytes → List Bytes
  | [] => []
  | t :: ts =>
      match strstr (lit "q=") (formTaken t) with
      | none => fieldPieces ts
      | some s =>
          (cutForm (s.drop 2)).1 :: if (cutForm (s.drop 2)).2 then [] else morePieces ts

/-- The client when these records have come. -/
def Client.fed (c : Client) (ts : List Bytes) : Client :=
  ts.foldl (fun c t => formChunk (formTaken t) c) c

theorem Client.fed_cons (c : Client) (t : Bytes) (ts : List Bytes) :
    c.fed (t :: ts) = (formChunk (formTaken t) c).fed ts := rfl

/-- Nothing of the form has come. -/
structure Client.Unfilled (c : Client) : Prop where
  body : c.cltBody = none
  bodylen : c.cltBodylen = 0
  bodydone : c.cltBodydone = false

/-- What the client holds when these pieces have come. -/
def Client.Holds (c : Client) (ps : List Bytes) : Prop :=
  if ps.dropLast.flatten.length ≤ geminiMaxlen then
    c.cltBody = some ps.flatten ∧ c.cltBodylen = ps.flatten.length
  else c.cltBody = none ∧ geminiMaxlen < c.cltBodylen

/-- Nothing that comes makes a difference any more. -/
def Client.Settled (c : Client) : Prop :=
  c.cltBodydone = true ∨ c.cltBody = none ∧ geminiMaxlen < c.cltBodylen

section Pieces

variable {ps : List Bytes}

theorem formChunk_of_settled (h : c.Settled) (t : Bytes) : formChunk t c = c := by
  rw [formChunk]
  rcases h with hdone | ⟨hbody, hlen⟩
  · rw [if_pos hdone]
  · have hsame : { c with cltBody := none } = c := by rw [← hbody]
    rw [if_pos hlen, hsame, ite_self]

theorem fed_of_settled (h : c.Settled) (ts : List Bytes) : c.fed ts = c := by
  induction ts with
  | nil => rfl
  | cons t ts ih => rw [Client.fed_cons, formChunk_of_settled h, ih]

theorem length_flatten_dropLast (ps : List Bytes) :
    ps.dropLast.flatten.length ≤ ps.flatten.length := by
  cases hlast : ps.getLast? with
  | none => rw [List.getLast?_eq_none_iff.mp hlast]; rfl
  | some p =>
    obtain ⟨qs, rfl⟩ := List.getLast?_eq_some_iff.mp hlast
    simp

/-- Once the limit is passed the body is dropped, with the piece that came. -/
theorem formChunk_over (hdone : c.cltBodydone = false) (hlen : geminiMaxlen < c.cltBodylen)
    (t : Bytes) : formChunk t c = { c with cltBody := none } := by
  rw [formChunk, hdone, if_neg Bool.false_ne_true, if_pos hlen]

/-- Below it the piece is added. -/
theorem formChunk_under {body : Bytes} (hdone : c.cltBodydone = false)
    (hbody : c.cltBody = some body) (hlen : c.cltBodylen ≤ geminiMaxlen) (t : Bytes) :
    formChunk t c = { c with
      cltBody := some (body ++ (cutForm t).1)
      cltBodylen := c.cltBodylen + (cutForm t).1.length
      cltBodydone := (cutForm t).2 } := by
  rw [formChunk, hdone, if_neg Bool.false_ne_true, if_neg (Nat.not_lt.mpr hlen), hbody]

/-- **One more piece.** When it was cut, the field is complete or dropped for good. -/
theorem Client.Holds.chunk (h : c.Holds ps) (hdone : c.cltBodydone = false) (t : Bytes) :
    (formChunk t c).Holds (ps ++ [(cutForm t).1]) ∧
      if (cutForm t).2 then (formChunk t c).Settled else (formChunk t c).cltBodydone = false := by
  have hdrop : (ps ++ [(cutForm t).1]).dropLast = ps := List.dropLast_concat
  have hflat : (ps ++ [(cutForm t).1]).flatten = ps.flatten ++ (cutForm t).1 := by simp
  by_cases hover : geminiMaxlen < c.cltBodylen
  · have hlong : ¬ ps.flatten.length ≤ geminiMaxlen := by
      rw [Client.Holds] at h
      split at h
      · omega
      · have := length_flatten_dropLast ps
        omega
    rw [formChunk_over hdone hover]
    constructor
    · rw [Client.Holds, hdrop, if_neg hlong]
      exact ⟨rfl, hover⟩
    · split
      · exact .inr ⟨rfl, hover⟩
      · exact hdone
  · rw [Client.Holds] at h
    split at h
    · obtain ⟨hbody, hlen⟩ := h
      rw [formChunk_under hdone hbody (Nat.not_lt.mp hover)]
      constructor
      · rw [Client.Holds, hdrop, if_pos (by omega), hflat, List.length_append, ← hlen]
        exact ⟨rfl, rfl⟩
      · split
        · rename_i hcut
          exact .inl hcut
        · rename_i hcut
          exact Bool.not_eq_true _ ▸ hcut
    · exact absurd h.2 hover

theorem Client.Holds.fed (h : c.Holds ps) (hdone : c.cltBodydone = false) (ts : List Bytes) :
    (c.fed ts).Holds (ps ++ morePieces ts) := by
  induction ts generalizing c ps with
  | nil =>
    rw [morePieces, List.append_nil]
    exact h
  | cons t ts ih =>
    obtain ⟨hnext, hcut⟩ := h.chunk hdone (formTaken t)
    rw [Client.fed_cons, morePieces]
    split at hcut
    · rename_i hc
      rw [fed_of_settled hcut, if_pos hc]
      exact hnext
    · rename_i hc
      rw [if_neg hc, List.append_cons]
      exact ih hnext hcut

/-- **What a client holds in the end**: nothing, when no record had the name of the field in it. -/
theorem Client.Unfilled.fed (hc : c.Unfilled) (ts : List Bytes) :
    fieldPieces ts = [] ∧ (c.fed ts).Unfilled ∨ fieldPieces ts ≠ [] ∧
      (c.fed ts).Holds (fieldPieces ts) := by
  induction ts with
  | nil => exact .inl ⟨rfl, hc⟩
  | cons t ts ih =>
    have hzero : ¬ c.cltBodylen > geminiMaxlen := by
      rw [hc.bodylen]
      decide
    rw [Client.fed_cons, fieldPieces, formChunk, hc.bodydone, if_neg Bool.false_ne_true,
      if_neg hzero, hc.body]
    dsimp only
    rw [if_neg (by rw [hc.bodylen]; decide)]
    cases hfound : strstr (lit "q=") (formTaken t) with
    | none => exact ih
    | some s =>
      refine .inr ⟨List.cons_ne_nil _ _, ?_⟩
      dsimp only
      split
      · rename_i hcut
        rw [fed_of_settled (.inl hcut)]
        simp [Client.Holds]
      · rename_i hcut
        refine @Client.Holds.fed _ [(cutForm (s.drop 2)).1] ?_ (by simpa using hcut) ts
        simp [Client.Holds]

end Pieces

/-! ## Cuts that spare the name -/

theorem cutForm_plain {t : Bytes} (hamp : 38 ∉ t) (hcr : 13 ∉ t) : cutForm t = (t, false) := by
  rw [cutForm, strchr_eq_none hamp, strchr_eq_none hcr]

theorem formTaken_plain {t : Bytes} (hnul : 0 ∉ t) (hlen : t.length ≤ 2047) : formTaken t = t := by
  rw [formTaken, List.take_of_length_le hlen, cstr_eq_self hnul]

/-- A record of a plain value. -/
structure PlainPiece (t : Bytes) : Prop where
  nul : 0 ∉ t
  amp : 38 ∉ t
  cr : 13 ∉ t
  short : t.length ≤ 2047

theorem morePieces_plain (h : ∀ t ∈ ts, PlainPiece t) : morePieces ts = ts := by
  induction ts with
  | nil => rfl
  | cons t ts ih =>
    have ht := h t List.mem_cons_self
    rw [morePieces, formTaken_plain ht.nul ht.short, cutForm_plain ht.amp ht.cr,
      ih fun s hs => h s (List.mem_cons_of_mem _ hs)]
    rfl

/-- A form that begins with the field and has nothing else. -/
theorem fieldPieces_plain {v : Bytes} (hv : PlainPiece (lit "q=" ++ v))
    (hts : ∀ t ∈ ts, PlainPiece t) : fieldPieces ((lit "q=" ++ v) :: ts) = v :: ts := by
  have hlit : lit "q=" = [113, 61] := by decide
  have hfound : strstr (lit "q=") (lit "q=" ++ v) = some (lit "q=" ++ v) := by
    rw [hlit]
    simp [strstr, List.isPrefixOf]
  have hdrop : (lit "q=" ++ v).drop 2 = v := by
    rw [hlit]
    rfl
  have hmem {b : UInt8} (hb : b ∈ v) : b ∈ lit "q=" ++ v := List.mem_append_right _ hb
  rw [fieldPieces, formTaken_plain hv.nul hv.short, hfound]
  dsimp only
  rw [hdrop, cutForm_plain (fun hb => hv.amp (hmem hb)) (fun hb => hv.cr (hmem hb)),
    morePieces_plain hts]
  rfl

theorem plainPiece_field {v : Bytes} (hnul : 0 ∉ v) (hamp : 38 ∉ v) (hcr : 13 ∉ v)
    (hshort : (lit "q=" ++ v).length ≤ 2047) : PlainPiece (lit "q=" ++ v) := by
  have hlit : lit "q=" = [113, 61] := by decide
  have hmem {b : UInt8} (hb : b ∈ lit "q=" ++ v) (hq : b ∉ [113, 61]) : b ∈ v := by
    rw [hlit] at hb
    exact (List.mem_append.mp hb).resolve_left hq
  exact ⟨fun hb => hnul (hmem hb (by decide)), fun hb => hamp (hmem hb (by decide)),
    fun hb => hcr (hmem hb (by decide)), hshort⟩

theorem length_strstr {t s : Bytes} (h : strstr (lit "q=") t = some s) :
    2 ≤ s.length ∧ s.length ≤ t.length := by
  have hlit : lit "q=" = [113, 61] := by decide
  induction t with
  | nil => cases h
  | cons b t ih =>
    rw [strstr] at h
    split at h
    · rename_i hstarts
      obtain rfl := Option.some.inj h
      have hle := (List.isPrefixOf_iff_prefix.mp hstarts).length_le
      rw [hlit] at hle
      exact ⟨hle, Nat.le_refl _⟩
    · have := ih h
      rw [List.length_cons]
      omega

theorem length_cutForm (t : Bytes) : (cutForm t).1.length ≤ t.length := by
  unfold cutForm
  split
  · exact (List.take_sublist _ _).length_le
  split
  · exact (List.take_sublist _ _).length_le
  · exact Nat.le_refl _

theorem length_formTaken (t : Bytes) : (formTaken t).length ≤ t.length :=
  ((List.takeWhile_sublist _).trans (List.take_sublist _ _)).length_le

theorem length_morePieces (ts : List Bytes) :
    (morePieces ts).flatten.length ≤ ts.flatten.length := by
  induction ts with
  | nil => exact Nat.le_refl _
  | cons t ts ih =>
    have hcut := (length_cutForm (formTaken t)).trans (length_formTaken t)
    rw [morePieces, List.flatten_cons, List.flatten_cons, List.length_append, List.length_append]
    split
    · rw [List.flatten_nil, List.length_nil]
      omega
    · omega

/-- The name of the field is never part of it. -/
theorem length_fieldPieces (h : fieldPieces ts ≠ []) :
    (fieldPieces ts).flatten.length + 2 ≤ ts.flatten.length := by
  induction ts with
  | nil => exact absurd rfl h
  | cons t ts ih =>
    rw [fieldPieces] at h ⊢
    rw [List.flatten_cons, List.length_append]
    cases hfound : strstr (lit "q=") (formTaken t) with
    | none =>
      rw [hfound] at h
      have := ih h
      dsimp only
      omega
    | some s =>
      have hs := length_strstr hfound
      have ht := length_formTaken t
      have hcut := length_cutForm (s.drop 2)
      rw [List.length_drop] at hcut
      dsimp only
      rw [List.flatten_cons, List.length_append]
      split
      · rw [List.flatten_nil, List.length_nil]
        omega
      · have := length_morePieces ts
        omega

/-- The records of a form on request `id`, none longer than what is taken of it. -/
structure FormRecords (id : UInt16) (rs : List Record) : Prop where
  type : ∀ r ∈ rs, r.type = stdin
  id : ∀ r ∈ rs, r.id = id
  content : ∀ r ∈ rs, r.content ≠ []
  short : ∀ r ∈ rs, r.content.length ≤ 2047

theorem FormRecords.tail {id : UInt16} {r : Record} {rs : List Record}
    (h : FormRecords id (r :: rs)) : FormRecords id rs where
  type r' hr' := h.type r' (List.mem_cons_of_mem _ hr')
  id r' hr' := h.id r' (List.mem_cons_of_mem _ hr')
  content r' hr' := h.content r' (List.mem_cons_of_mem _ hr')
  short r' hr' := h.short r' (List.mem_cons_of_mem _ hr')

/-- A form with one plain field, cut into records. -/
structure FormCut (id : UInt16) (v : Bytes) (rs : List Record) :
    Prop extends FormRecords id rs where
  whole : (rs.map Record.content).flatten = lit "q=" ++ v

section Cuts

variable {id : UInt16} {v : Bytes} {r : Record} {rs : List Record}

/-- The name of the field is in the first record, or is cut. -/
theorem FormCut.first (h : FormCut id v (r :: rs)) :
    (∃ v₁, r.content = lit "q=" ++ v₁ ∧ v₁ ++ (rs.map Record.content).flatten = v) ∨
      r.content = lit "q" ∧ (rs.map Record.content).flatten = 61 :: v := by
  have hlit : lit "q=" = [113, 61] := by decide
  have hq : lit "q" = [113] := by decide
  have hwhole := h.whole
  rw [List.map_cons, List.flatten_cons, hlit] at hwhole
  rw [hlit, hq]
  rcases hcontent : r.content with _ | ⟨a, _ | ⟨b, v₁⟩⟩
  · exact absurd hcontent (h.content r List.mem_cons_self)
  · rw [hcontent] at hwhole
    obtain ⟨rfl, hrest⟩ := List.cons.inj hwhole
    exact .inr ⟨rfl, hrest⟩
  · rw [hcontent] at hwhole
    obtain ⟨rfl, hrest⟩ := List.cons.inj hwhole
    obtain ⟨rfl, hv⟩ := List.cons.inj hrest
    exact .inl ⟨v₁, rfl, hv⟩

/-- The field is put together exactly when its name is not cut. -/
theorem FormCut.fed_body (h : FormCut id v rs) (hlen : v.length ≤ 1024) (hnul : 0 ∉ v)
    (hamp : 38 ∉ v) (hcr : 13 ∉ v) (hc : c.Unfilled) :
    ((c.fed (rs.map Record.content)).cltBody = some v ↔ ∀ r ∈ rs.head?, 2 ≤ r.content.length) ∧
      ((∀ r ∈ rs.head?, 2 ≤ r.content.length) →
        (c.fed (rs.map Record.content)).Holds (fieldPieces (rs.map Record.content))) := by
  have hlit : lit "q=" = [113, 61] := by decide
  have hmax : geminiMaxlen = 1025 := rfl
  cases rs with
  | nil =>
    have hwhole := congrArg List.length h.whole
    rw [List.length_append, hlit] at hwhole
    simp only [List.map_nil, List.flatten_nil, List.length_nil, List.length_cons] at hwhole
    omega
  | cons r rs =>
    have hhead : (∀ r' ∈ (r :: rs).head?, 2 ≤ r'.content.length) ↔ 2 ≤ r.content.length := by simp
    rw [hhead, List.map_cons]
    rcases h.first with ⟨v₁, hcontent, hv⟩ | ⟨hcontent, hrest⟩
    · have hmem {t : Bytes} (ht : t ∈ rs.map Record.content) : t ⊆ v := by
        rw [← hv]
        exact fun b hb => List.mem_append_right _ (List.mem_flatten_of_mem ht hb)
      have hmem₁ : v₁ ⊆ v := by
        rw [← hv]
        exact List.subset_append_left _ _
      have hplain : ∀ t ∈ rs.map Record.content, PlainPiece t := by
        intro t ht
        obtain ⟨r', hr', rfl⟩ := List.mem_map.mp ht
        exact ⟨fun hb => hnul (hmem ht hb), fun hb => hamp (hmem ht hb),
          fun hb => hcr (hmem ht hb), h.short r' (List.mem_cons_of_mem _ hr')⟩
      have hshort := h.short r List.mem_cons_self
      rw [hcontent] at hshort
      have hpieces : fieldPieces (r.content :: rs.map Record.content)
          = v₁ :: rs.map Record.content := by
        rw [hcontent]
        exact fieldPieces_plain (plainPiece_field (fun hb => hnul (hmem₁ hb))
          (fun hb => hamp (hmem₁ hb)) (fun hb => hcr (hmem₁ hb)) hshort) hplain
      have hflat : (v₁ :: rs.map Record.content).flatten = v := by rw [List.flatten_cons, hv]
      have htwo : 2 ≤ r.content.length := by
        rw [hcontent, List.length_append, hlit]
        exact Nat.le_add_right _ _
      rcases hc.fed (r.content :: rs.map Record.content) with ⟨hnil, -⟩ | ⟨-, hholds⟩
      · rw [hpieces] at hnil
        cases hnil
      · refine ⟨⟨fun _ => htwo, fun _ => ?_⟩, fun _ => hholds⟩
        rw [hpieces, Client.Holds, hflat] at hholds
        rw [if_pos ?_] at hholds
        · exact hholds.1
        · have := length_flatten_dropLast (v₁ :: rs.map Record.content)
          rw [hflat] at this
          omega
    · -- `q` alone is nothing, and what is found later is shorter than the value
      have hone : ¬ 2 ≤ r.content.length := by
        rw [hcontent]
        decide
      have hskip : fieldPieces (r.content :: rs.map Record.content)
          = fieldPieces (rs.map Record.content) := by
        have hnone : strstr (lit "q=") (formTaken (lit "q")) = none := by decide
        rw [fieldPieces, hcontent, hnone]
      refine ⟨⟨fun hbody => ?_, fun htwo => absurd htwo hone⟩, fun htwo => absurd htwo hone⟩
      exfalso
      rcases hc.fed (r.content :: rs.map Record.content) with ⟨-, hempty⟩ | ⟨hne, hholds⟩
      · rw [hempty.body] at hbody
        cases hbody
      · rw [hskip] at hne hholds
        have hshorter := length_fieldPieces hne
        rw [hrest, List.length_cons] at hshorter
        rw [Client.Holds] at hholds
        split at hholds
        · rw [hholds.1] at hbody
          rw [← Option.some.inj hbody] at hshorter
          omega
        · rw [hholds.1] at hbody
          cases hbody

end Cuts

/-! ## On the connection -/

theorem fed_fields (c : Client) (ts : List Bytes) : ∃ body len done,
    c.fed ts = { c with cltBody := body, cltBodylen := len, cltBodydone := done } := by
  induction ts generalizing c with
  | nil => exact ⟨c.cltBody, c.cltBodylen, c.cltBodydone, rfl⟩
  | cons t ts ih =>
    obtain ⟨body, len, done, hchunk⟩ : ∃ body len done, formChunk (formTaken t) c
        = { c with cltBody := body, cltBodylen := len, cltBodydone := done } := by
      unfold formChunk
      split
      · exact ⟨c.cltBody, c.cltBodylen, c.cltBodydone, rfl⟩
      split
      · exact ⟨none, c.cltBodylen, c.cltBodydone, rfl⟩
      split
      · exact ⟨_, _, _, rfl⟩
      split
      · exact ⟨c.cltBody, c.cltBodylen, c.cltBodydone, rfl⟩
      split
      · exact ⟨c.cltBody, c.cltBodylen, c.cltBodydone, rfl⟩
      · exact ⟨_, _, _, rfl⟩
    obtain ⟨body', len', done', hrest⟩ := ih (formChunk (formTaken t) c)
    rw [Client.fed_cons, hrest, hchunk]
    exact ⟨body', len', done', rfl⟩

/-- **The records of a form are taken one by one.** -/
theorem run_form (env : Env) {id : UInt16} {rs : List Record} (hrs : FormRecords id rs) {f : Fcgi}
    {rest : Bytes} (hf : f.AtHeader) (hin : f.input = rs.flatMap Record.encode ++ rest)
    (hfind : f.find id.toUInt32 = some c) (hmethod : c.cltMethod = .post)
    {stales : List (Bytes × Bytes)} (hstales : stales.length = rs.length) :
    ∃ g, run env f (reads stales) = g ∧ g.AtHeader ∧ g.input = rest ∧
      g.find id.toUInt32 = some (c.fed (rs.map Record.content)) ∧ g.writes = f.writes ∧
      answer id g.trace = answer id f.trace := by
  induction rs generalizing f c stales with
  | nil =>
    cases List.eq_nil_of_length_eq_zero hstales
    exact ⟨f, rfl, hf, hin, hfind, rfl, rfl⟩
  | cons r rs ih =>
    cases stales with
    | nil => cases hstales
    | cons stale stales =>
      obtain rfl := hrs.id r List.mem_cons_self
      have hshort := hrs.short r List.mem_cons_self
      rw [List.flatMap_cons, List.append_assoc] at hin
      obtain ⟨g, hrun, hg, hgin, hgfind, hgwrites, hganswer⟩ :=
        chunk_taken hf hin (hrs.type r List.mem_cons_self) (hrs.content r List.mem_cons_self) hshort
          hfind hmethod stale.1 stale.2
      obtain ⟨h, hrun', hh, hhin, hhfind, hhwrites, hhanswer⟩ :=
        ih hrs.tail hg hgin hgfind ((formChunk_same _ c).method.trans hmethod)
          (Nat.succ.inj hstales)
      refine ⟨h, ?_, hh, hhin, ?_, hhwrites.trans hgwrites, hhanswer.trans hganswer⟩
      · have hsplit : run env f (reads (stale :: stales))
            = run env (run env f [.read stale.1, .read stale.2]) (reads stales) := rfl
        rw [hsplit, hrun, hrun']
      · rw [List.map_cons, Client.fed_cons, formTaken, List.take_of_length_le hshort]
        exact hhfind

/-- The field has come to the client of `id` with the value `v`: `g` is the connection when the
records of the form have been taken, `g'` when the empty record behind them has. The request is
then answered with a redirection to `v`, if it can be answered at all. -/
structure FieldArrived (env : Env) (id : UInt16) (v : Bytes) (c : Client) (f g g' : Fcgi) :
    Prop where
  body : ∃ d, g.find id.toUInt32 = some d ∧ d.cltBody = some v
  query : ∀ script path, c.AwaitsForm script path → false ∉ f.writes →
    (proxyMatch env c.cltServerName).isSome = true →
      answer id g'.trace = ⟨(answer id f.trace).text
          ++ headText (Head.reply 302 (script ++ path.tail ++ lit "?" ++ v)).fields,
        (answer id f.trace).ends ++ [endReqBody 1 requestComplete]⟩

/-- **However a form with one plain field is cut, the field arrives**, exactly if its name is not
cut: the first record has two bytes or more. -/
theorem form_cut_iff (env : Env) (f : Fcgi) (c : Client) (id : UInt16) (v : Bytes)
    (hlen : v.length ≤ 1024) (hnul : 0 ∉ v) (hamp : 38 ∉ v) (hcr : 13 ∉ v) (rs : List Record)
    (hcut : FormCut id v rs) (last : Record) (htype : last.type = stdin) (hid : last.id = id)
    (hempty : last.content = []) (rest : Bytes) (hf : f.AtHeader)
    (hin : f.input = rs.flatMap Record.encode ++ (last.encode ++ rest))
    (hfind : f.find id.toUInt32 = some c) (hmethod : c.cltMethod = .post) (hc : c.Unfilled)
    (stales : List (Bytes × Bytes)) (hstales : stales.length = rs.length) (stale stale' : Bytes) :
    FieldArrived env id v c f (run env f (reads stales))
        (run env f (reads stales ++ [.read stale, .read stale'])) ↔
      ∀ r ∈ rs.head?, 2 ≤ r.content.length := by
  obtain ⟨g, hrun, hg, hgin, hgfind, hgwrites, hganswer⟩ :=
    run_form env hcut.toFormRecords hf hin hfind hmethod hstales
  have hsplit : run env f (reads stales ++ [.read stale, .read stale'])
      = run env g [.read stale, .read stale'] := by
    rw [← hrun]
    exact Run.run_append _ _ _ _
  obtain ⟨hiff, hholds⟩ := hcut.fed_body hlen hnul hamp hcr hc
  rw [hrun, hsplit]
  constructor
  · rintro ⟨⟨d, hd, hbody⟩, -⟩
    rw [hgfind] at hd
    obtain rfl := Option.some.inj hd
    exact hiff.mp hbody
  · intro hwhole
    refine ⟨⟨_, hgfind, hiff.mpr hwhole⟩, fun script path hawaits hwrites hserver => ?_⟩
    obtain ⟨body, len, done, hfed⟩ := fed_fields c (rs.map Record.content)
    have hbody := hiff.mpr hwhole
    have hlength := hholds hwhole
    rw [Client.Holds] at hlength
    rw [hfed] at hbody hlength
    have hsubmitted : { c.fed (rs.map Record.content) with cltBodydone := true }
        = c.submitted v := by
      split at hlength
      · have hv : (fieldPieces (rs.map Record.content)).flatten = v :=
          Option.some.inj (hlength.1.symm.trans hbody)
        have hlen' : len = v.length := by
          rw [← hv]
          exact hlength.2
        have hbody' : body = some v := hbody
        rw [hfed, Client.submitted, hbody', hlen']
      · exact absurd (hlength.1.symm.trans hbody) (by simp)
    subst hid
    rw [form_answered hg hgin htype hempty (hgwrites ▸ hwrites) hgfind hsubmitted hawaits hserver
      stale stale', hganswer]

/-- A record of a form on request 1. -/
def formRecord (content : Bytes) (h : content.length ≤ 65535) : Record :=
  ⟨stdin, 1, content, [], h, no_padding_le⟩

/-- A connection on which a `POST` request has sent its parameters, with these bytes in the
input. -/
def awaitingForm (input : Bytes) : Fcgi :=
  { Fcgi.new [] [] with fcgClients := [exampleClient .post], nextSerial := 1, input := input }

/-- The value cut in its middle. -/
theorem value_cut_arrives :
    let rs := [formRecord (lit "q=h") (by decide), formRecord (lit "i") (by decide)]
    let f := awaitingForm (rs.flatMap Record.encode ++ (exampleFormEnd.encode ++ []))
    FieldArrived exampleEnv 1 (lit "hi") (exampleClient .post) f
      (run exampleEnv f (reads [([], []), ([], [])]))
      (run exampleEnv f (reads [([], []), ([], [])] ++ [.read [], .read []])) := by
  intro rs f
  refine (form_cut_iff exampleEnv f (exampleClient .post) 1 (lit "hi") (by decide) (by decide)
    (by decide) (by decide) rs ⟨⟨?_, ?_, ?_, ?_⟩, ?_⟩ exampleFormEnd rfl rfl rfl []
      ⟨rfl, rfl, rfl⟩ rfl
    (by decide) rfl ⟨rfl, rfl, rfl⟩ _ rfl [] []).mpr (by decide)
  all_goals decide

/-- The name cut in its middle: the same bytes, and the form is gone. -/
theorem name_cut_lost :
    let rs := [formRecord (lit "q") (by decide), formRecord (lit "=hi") (by decide)]
    let f := awaitingForm (rs.flatMap Record.encode ++ (exampleFormEnd.encode ++ []))
    ((run exampleEnv f (reads [([], []), ([], [])])).find 1).map Client.cltBody = some none ∧
      (answer 1 (run exampleEnv f (reads [([], []), ([], [])] ++ [.read [], .read []])).trace).text
        = [] := by
  decide

/-! ## The limit -/

/-- What is said about request `i` from `f` on. -/
def saidSince (i : UInt16) (f g : Fcgi) : Bytes :=
  (answer i g.trace).text.drop (answer i f.trace).text.length

/-- A redirection to the page with a query. -/
def redirectText (script path q : Bytes) : Bytes :=
  headText (Head.reply 302 (script ++ path.tail ++ lit "?" ++ q)).fields

/-- The head of the page that says the request was bad. -/
def refusalText : Bytes := headText (Head.reply 400 (lit "text/html")).fields

theorem redirectText_inj {script path q q' : Bytes}
    (h : redirectText script path q = redirectText script path q') : q = q' := by
  simpa [redirectText, headText, Head.fields, Field.text] using h

theorem redirectText_take (script path q : Bytes) :
    (redirectText script path q).take 9 = lit "Status: 3" := rfl

/-- A redirection is not a refusal. -/
theorem redirectText_ne {script path q s : Bytes} :
    refusalText ++ s ≠ redirectText script path q := by
  have hrefusal : (refusalText ++ s).take 9 = lit "Status: 4" := rfl
  intro h
  rw [h, redirectText_take] at hrefusal
  exact absurd hrefusal (by decide)

/-- **What a form is answered with**, by the pieces that have come. -/
theorem startScript_fed {env : Env} {asr : List AsrAnswer} {script path : Bytes}
    (hc : c.AwaitsForm script path) (hserver : (proxyMatch env c.cltServerName).isSome = true)
    {said : Bytes}
    (hsaid : said
      = (startScript env asr { c.fed ts with cltBodydone := true }).words c.cltTp.tpCap []) :
    (fieldPieces ts = [] ∧ said = []) ∨
    (fieldPieces ts ≠ [] ∧ (fieldPieces ts).dropLast.flatten.length ≤ geminiMaxlen ∧
      said = redirectText script path (fieldPieces ts).flatten) ∨
    (geminiMaxlen < (fieldPieces ts).dropLast.flatten.length ∧ ∃ s, said = refusalText ++ s) := by
  obtain ⟨body, len, done, hfed⟩ := fed_fields c ts
  obtain ⟨pc, hpc⟩ := Option.isSome_iff_exists.mp hserver
  have hpath : (c.fed ts).cltPathInfo = some path := by rw [hfed]; exact hc.path
  have hname : (c.fed ts).cltServerName = c.cltServerName := by rw [hfed]
  have hscript : (c.fed ts).cltScriptName = some script := by rw [hfed]; exact hc.script
  rw [hsaid, startScript]
  dsimp only
  rw [hpath, hname, hpc]
  dsimp only
  rcases Client.Unfilled.fed ⟨hc.body, hc.bodylen, hc.bodydone⟩ ts with
    ⟨hnil, hempty⟩ | ⟨hne, hholds⟩
  · refine .inl ⟨hnil, ?_⟩
    rw [hempty.body, hempty.bodylen]
    rw [if_neg (by decide)]
    dsimp only
    unfold resolverScript
    rcases asr with _ | ⟨_ | _ | _, as⟩ <;> rfl
  · rw [Client.Holds] at hholds
    split at hholds
    · rename_i hle
      refine .inr (.inl ⟨hne, hle, ?_⟩)
      rw [hholds.1, hscript]
      rw [if_neg (by simp)]
      dsimp only
      rw [Script.words_ends (.write _), List.nil_append, pageText_proxyStartReply]
      rfl
    · rename_i hlong
      refine .inr (.inr ⟨Nat.not_le.mp hlong, ?_⟩)
      have hlen : ¬ (c.fed ts).cltBodylen = 0 := by omega
      have hwords (ps ps' : List Piece) (cap : Nat) :
          (Script.mk [.write ps, .write ps'] (.ends 1 requestComplete)).words cap []
            = pageText ps ++ pageText ps' :=
        Script.words_ends ((Utters.write ps).append (Utters.write ps')) cap []
      rw [hholds.1, if_pos (by simpa using hlen), failScript, hwords, pageText_proxyStartReply]
      exact ⟨_, rfl⟩

/-- The limit is kept: a redirection has a query of at most 1025 bytes, and a field that is longer
is refused. -/
structure LimitKept (script path said : Bytes) (ts : List Bytes) : Prop where
  redirect : ∀ q, said = redirectText script path q → q.length ≤ geminiMaxlen
  refuse : geminiMaxlen < (fieldPieces ts).flatten.length → refusalText <+: said

theorem long_field_le : (lit "q=" ++ List.replicate 1026 97).length ≤ 65535 := by
  rw [List.length_append, List.length_replicate]
  decide

end Galileo
