import Galileo.Model.Proxy

/-!
# What `parse_mime` makes of the parameters of a type

A meta is `text/gemini` and parameters, each behind a `;` and maybe blanks. The loop sees the
parameters one by one (`strsepAll_tokens`), and of each it sees less than is there: one with a
blank in front is nothing to it (`parseMimeParams_token`).

Three slips follow from reading the loop as a whole (`parseMimeParams_tokens`). The test of the
charset is the wrong way round, so it is the *known* charsets that are refused; the blanks hide
what stands behind them; and a `lang` that is too long does not leave an earlier one in place but
clears it. `parse_mime_iff` is what is left: the metas on which the slips cancel out or do not
show.
-/

set_option autoImplicit false

namespace Galileo

open Lib

/-! ## Metas -/

/-- A parameter as it stands in a meta, with the blanks in front of it. -/
structure MimeParam where
  blanks : Bytes
  text : Bytes
  blank : ∀ b ∈ blanks, isblank b = true
  plain : 59 ∉ text
  bare : text.head?.any isblank = false

namespace MimeParam

/-- What stands between two semicolons. -/
def token (p : MimeParam) : Bytes := p.blanks ++ p.text

/-- The value of a charset. -/
def charset (p : MimeParam) : Option Bytes :=
  if (lit "charset=").isPrefixOf p.text then some (p.text.drop 8) else none

/-- The value of a language. -/
def lang (p : MimeParam) : Option Bytes :=
  if (lit "lang=").isPrefixOf p.text then some (p.text.drop 5) else none

/-- A charset that cannot be shown. -/
def unknown (p : MimeParam) : Bool :=
  p.charset.any fun v =>
    !(caseEq v (lit "utf-8") || caseEq v (lit "utf8") || caseEq v (lit "ascii"))

/-- A charset that begins like one of the three. -/
def familiar (p : MimeParam) : Bool :=
  p.charset.any fun v =>
    caseEq (v.take 4) (lit "utf8") || caseEq (v.take 5) (lit "utf-8")
      || caseEq (v.take 5) (lit "ascii")

end MimeParam

/-- `text/gemini` and its parameters. -/
def metaOf (ps : List MimeParam) : Bytes :=
  lit "text/gemini" ++ ps.flatMap fun p => 59 :: p.token

/-- The language a list of parameters asks for: the last one that fits. -/
def askedLang (ps : List MimeParam) : Bytes :=
  ((ps.filterMap MimeParam.lang).filter fun v => v.length < 16).getLast?.getD []

/-- The parameters with nothing in front of them. -/
def bareParams (ps : List MimeParam) : List MimeParam := ps.filter fun p => p.blanks.isEmpty

/-- The last language of the parameters with nothing in front, if it fits. -/
def lastLang (ps : List MimeParam) (lang : Bytes) : Bytes :=
  match ((bareParams ps).filterMap MimeParam.lang).getLast? with
  | none => lang
  | some v => if v.length ≥ 16 then [] else v

/-! ## Tokens -/

theorem MimeParam.semi_not_mem_token (p : MimeParam) : 59 ∉ p.token := by
  intro h
  rcases List.mem_append.mp h with h | h
  · exact absurd (p.blank 59 h) (by decide)
  · exact p.plain h

theorem strsepAll_plain {t : Bytes} (h : 59 ∉ t) : strsepAll t = [t] := by
  induction t with
  | nil => rfl
  | cons b t ih =>
    rw [List.mem_cons, not_or] at h
    rw [strsepAll, if_neg (by simpa using Ne.symm h.1), ih h.2]

theorem strsepAll_semi {t : Bytes} (h : 59 ∉ t) (s : Bytes) :
    strsepAll (t ++ 59 :: s) = t :: strsepAll s := by
  induction t with
  | nil => rfl
  | cons b t ih =>
    rw [List.mem_cons, not_or] at h
    rw [List.cons_append, strsepAll, if_neg (by simpa using Ne.symm h.1), ih h.2]

/-- **The loop sees the parameters as they are listed.** -/
theorem strsepAll_tokens (p : MimeParam) (ps : List MimeParam) :
    strsepAll (p.token ++ ps.flatMap fun q => 59 :: q.token) = (p :: ps).map MimeParam.token := by
  induction ps generalizing p with
  | nil => simpa using strsepAll_plain p.semi_not_mem_token
  | cons q ps ih =>
    rw [List.flatMap_cons, List.cons_append, strsepAll_semi p.semi_not_mem_token, ih q]
    rfl

theorem strchr_metaOf (ps : List MimeParam) :
    strchr 59 (metaOf ps) = match ps with
      | [] => none
      | p :: ps => some (59 :: (p.token ++ ps.flatMap fun q => 59 :: q.token)) := by
  have hgem : ∀ s, strchr 59 (lit "text/gemini" ++ s) = strchr 59 s := by
    intro s
    rfl
  rw [metaOf, hgem]
  cases ps with
  | nil => rfl
  | cons p ps => rfl

/-! ## The loop -/

/-- A parameter behind a blank is nothing to the loop. -/
theorem parseMimeParams_blank {p : MimeParam} (h : p.blanks.isEmpty = false) (ts : List Bytes)
    (lang : Bytes) : parseMimeParams (p.token :: ts) lang = parseMimeParams ts lang := by
  obtain ⟨b, bs, hbs⟩ : ∃ b bs, p.blanks = b :: bs := by
    cases hb : p.blanks with
    | nil => simp [hb] at h
    | cons b bs => exact ⟨b, bs, rfl⟩
  have hb := p.blank b (by rw [hbs]; exact List.mem_cons_self)
  have htok : p.token = b :: (bs ++ p.text) := by rw [MimeParam.token, hbs, List.cons_append]
  have hc : (lit "charset=").isPrefixOf p.token = false := by
    rw [htok]
    refine Bool.and_eq_false_imp.mpr fun h99 => absurd hb ?_
    rw [← eq_of_beq h99]
    decide
  have hl : (lit "lang=").isPrefixOf p.token = false := by
    rw [htok]
    refine Bool.and_eq_false_imp.mpr fun h108 => absurd hb ?_
    rw [← eq_of_beq h108]
    decide
  rw [parseMimeParams, hc, hl]
  rfl

theorem parseMimeParams_bare {p : MimeParam} (h : p.blanks.isEmpty = true) (ts : List Bytes)
    (lang : Bytes) :
    parseMimeParams (p.token :: ts) lang
      = if p.familiar then none
        else parseMimeParams ts (match p.lang with
          | none => lang
          | some v => if v.length ≥ 16 then [] else v) := by
  have htok : p.token = p.text := by rw [MimeParam.token, List.isEmpty_iff.mp h, List.nil_append]
  rw [parseMimeParams, htok, MimeParam.familiar, MimeParam.charset, MimeParam.lang]
  by_cases hc : (lit "charset=").isPrefixOf p.text = true
  · -- a charset is no language
    have hl : (lit "lang=").isPrefixOf p.text = false := by
      cases ht : p.text with
      | nil => rfl
      | cons b t =>
        rw [ht] at hc
        have h99 := (Bool.and_eq_true_iff.mp hc).1
        refine Bool.and_eq_false_imp.mpr fun h108 => ?_
        have := (eq_of_beq h99).trans (eq_of_beq h108).symm
        exact absurd this (by decide)
    rw [if_pos hc, if_pos hc, hl]
    rfl
  · rw [if_neg hc, if_neg hc]
    split <;> rfl

theorem lastLang_cons (p : MimeParam) (ps : List MimeParam) (lang : Bytes) :
    lastLang (p :: ps) lang
      = lastLang ps (if p.blanks.isEmpty then (match p.lang with
          | none => lang
          | some v => if v.length ≥ 16 then [] else v) else lang) := by
  by_cases hb : p.blanks.isEmpty = true
  · have hbare : bareParams (p :: ps) = p :: bareParams ps := by
      rw [bareParams, List.filter_cons, if_pos hb]
      rfl
    rw [if_pos hb, lastLang, lastLang, hbare]
    cases hl : p.lang with
    | none => rw [List.filterMap_cons_none hl]
    | some v =>
      rw [List.filterMap_cons_some hl, List.getLast?_cons]
      cases ((bareParams ps).filterMap MimeParam.lang).getLast? <;> rfl
  · have hbare : bareParams (p :: ps) = bareParams ps := by
      rw [bareParams, List.filter_cons, if_neg hb]
      rfl
    rw [if_neg hb, lastLang, lastLang, hbare]

/-- **The whole loop**: it gives up if some parameter with nothing in front of it is a familiar
charset, and otherwise keeps the last language. -/
theorem parseMimeParams_tokens (ps : List MimeParam) (lang : Bytes) :
    parseMimeParams (ps.map MimeParam.token) lang
      = if (bareParams ps).any MimeParam.familiar then none else some (lastLang ps lang) := by
  induction ps generalizing lang with
  | nil => rfl
  | cons p ps ih =>
    rw [List.map_cons, lastLang_cons, bareParams, List.filter_cons]
    by_cases hb : p.blanks.isEmpty = true
    · rw [parseMimeParams_bare hb, ih, if_pos hb, if_pos hb, List.any_cons]
      cases p.familiar <;> rfl
    · rw [parseMimeParams_blank (by simpa using hb), ih, if_neg hb, if_neg hb]
      rfl

theorem parseMime_metaOf (tr : Translate) (ps : List MimeParam) :
    parseMime tr (metaOf ps)
      = ({ Translate.zero with enabled := true },
          if (bareParams ps).any MimeParam.familiar then none else some (lastLang ps [])) := by
  have hgem : (lit "text/gemini").isPrefixOf (metaOf ps) = true :=
    List.isPrefixOf_iff_prefix.mpr (List.prefix_append _ _)
  rw [parseMime, hgem, strchr_metaOf]
  cases ps with
  | nil => rfl
  | cons p ps =>
    rw [← parseMimeParams_tokens, ← strsepAll_tokens]
    rfl

/-! ## The outcome -/

/-- `parse_mime` has done what its caller needs: `-1` exactly for a charset that cannot be shown,
and otherwise a translation in the language that was asked for. -/
structure MimeHandled (ps : List MimeParam) (r : Translate × Option Bytes) : Prop where
  refused : r.2 = none ↔ ∃ p ∈ ps, p.unknown = true
  taken : (¬ ∃ p ∈ ps, p.unknown = true) → r.1.enabled = true ∧ r.2 = some (askedLang ps)

/-- **The parameters are handled exactly when** a familiar charset stands directly behind its
semicolon just in case some charset is unknown, and, unless some charset is unknown, the last
language that stands directly behind its semicolon is the one that is asked for. -/
theorem parse_mime_iff (tr : Translate) (ps : List MimeParam) :
    MimeHandled ps (parseMime tr (metaOf ps)) ↔
      ((∃ p ∈ ps, p.blanks = [] ∧ p.familiar = true) ↔ ∃ p ∈ ps, p.unknown = true) ∧
      ((¬ ∃ p ∈ ps, p.unknown = true) → lastLang ps [] = askedLang ps) := by
  have hany : (bareParams ps).any MimeParam.familiar = true
      ↔ ∃ p ∈ ps, p.blanks = [] ∧ p.familiar = true := by
    simp only [bareParams, List.any_filter, List.any_eq_true, Bool.and_eq_true, List.isEmpty_iff]
  rw [parseMime_metaOf, ← hany]
  cases hgave : (bareParams ps).any MimeParam.familiar with
  | true =>
    -- the loop gave up, and that must have been right
    constructor
    · intro h
      have hunknown := h.refused.mp rfl
      exact ⟨⟨fun _ => hunknown, fun _ => rfl⟩, fun hno => absurd hunknown hno⟩
    · rintro ⟨hiff, -⟩
      have hunknown := hiff.mp rfl
      exact ⟨⟨fun _ => hunknown, fun _ => rfl⟩, fun hno => absurd hunknown hno⟩
  | false =>
    -- the loop went through, and the languages must agree
    constructor
    · intro h
      have hknown : ¬ ∃ p ∈ ps, p.unknown = true := fun hex => by cases h.refused.mpr hex
      exact ⟨⟨fun hf => Bool.noConfusion hf, fun hex => absurd hex hknown⟩,
        fun _ => Option.some.inj (h.taken hknown).2⟩
    · rintro ⟨hiff, hlang⟩
      have hknown : ¬ ∃ p ∈ ps, p.unknown = true := fun hex => Bool.noConfusion (hiff.mpr hex)
      refine ⟨⟨fun hn => (by cases hn), fun hex => absurd hex hknown⟩, fun _ => ⟨rfl, ?_⟩⟩
      rw [← hlang hknown]
      rfl

/-- The parameter `text` behind `n` blanks. -/
def mimeParam (n : Nat) (text : Bytes) (hplain : 59 ∉ text)
    (hbare : text.head?.any isblank = false) : MimeParam :=
  ⟨List.replicate n 32, text, fun b hb => by rw [List.eq_of_mem_replicate hb]; rfl, hplain, hbare⟩

/-- A page in UTF-8 is refused; a language behind a blank is not heard; a language that is too
long clears the one before it. -/
theorem mime_params_mishandled :
    let utf8 := [mimeParam 0 (lit "charset=utf-8") (by decide) (by decide)]
    let blank := [mimeParam 1 (lit "lang=en") (by decide) (by decide)]
    let long := [mimeParam 0 (lit "lang=en") (by decide) (by decide),
      mimeParam 0 (lit "lang=x-0123456789abcd") (by decide) (by decide)]
    (parseMime .zero (metaOf utf8)).2 = none ∧ ¬ MimeHandled utf8 (parseMime .zero (metaOf utf8)) ∧
    ¬ MimeHandled blank (parseMime .zero (metaOf blank)) ∧
    ¬ MimeHandled long (parseMime .zero (metaOf long)) := by
  refine ⟨by decide, fun h => ?_, fun h => ?_, fun h => ?_⟩
  · exact absurd (h.refused.mp (by decide)) (by decide)
  · exact absurd (h.taken (by decide)).2 (by decide)
  · exact absurd (h.taken (by decide)).2 (by decide)

end Galileo
