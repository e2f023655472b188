import Galileo.Lib.CBlanks
import Galileo.Proof.Lexer
import Mathlib.Data.List.Infix

/-!
# Literal C code

Between `{!` and `!}` a template has C, which is copied line by line; a `!` that is not in front of
a `}` is kept, whatever else is around it. But all characters come through `lgetc`, which squeezes
blanks and knows nothing of C: in a string `"a  b"` one of the blanks is lost, and a tab becomes a
space. Outside of literals that does no harm, and so the tokens are those of the template **as long
as the blanks in literals are single spaces** (`verbatim_literal`).

Blanks in front of a line are dropped, and so are empty lines. A line that continues another one is
the only place where this matters.
-/

set_option autoImplicit false

namespace Galileo

open Lib Lib.CToken

namespace Tmpl

/-- The lines of a text, the last of which has no newline. -/
def linesOf (s : Bytes) : List Bytes := (splitLines s).1 ++ [(splitLines s).2]

/-- The text of a verbatim block: characters C source may have, no end mark, lines shorter than
`buf`. -/
structure VerbatimText (s : Bytes) : Prop where
  source : ∀ b ∈ s, b ≠ 0 ∧ isExpand b = false
  no_end : ¬ [33, 125] <:+: s
  short : ∀ w ∈ linesOf s, w.length < bufSize

instance (s : Bytes) : Decidable (VerbatimText s) :=
  decidable_of_iff ((s.all fun b => b != 0 && !isExpand b) = true ∧ ¬ [33, 125] <:+: s ∧
    ∀ w ∈ linesOf s, w.length < bufSize)
    ⟨fun h => ⟨by simpa using h.1, h.2.1, h.2.2⟩, fun h => ⟨by simpa using h.1, h.2, h.3⟩⟩

/-- **The blanks the reader squeezes or drops mean nothing.** In literals all blanks are single
spaces. A line that continues another one is not in a literal with blanks in front, has no blanks in
front that keep two tokens apart, and is not empty. What stands behind the last newline may be
empty, or blank outside of a literal; but it does not end in a backslash. -/
def BlanksKept (s : Bytes) : Prop :=
  (Scanner.start true).TextSpaced (splitLines s).1 (splitLines s).2

instance (s : Bytes) : Decidable (BlanksKept s) :=
  inferInstanceAs (Decidable ((Scanner.start true).TextSpaced _ _))

/-! ## Lexing -/

/-- A line of a verbatim block. -/
structure CLine (w : Bytes) : Prop where
  zero : 0 ∉ w
  plain : Plain w
  newline : 10 ∉ w
  no_end : ¬ [33, 125] <:+: w
  short : w.length < bufSize

theorem CLine.of_suffix {w v : Bytes} (h : CLine w) (hv : v <:+ w) : CLine v where
  zero hm := h.zero (hv.subset hm)
  plain b hb := h.plain b (hv.subset hb)
  newline hm := h.newline (hv.subset hm)
  no_end hi := h.no_end (hi.trans hv.isInfix)
  short := Nat.lt_of_le_of_lt hv.length_le h.short

theorem CLine.untagged {w : Bytes} (h : CLine w) {c : UInt8} (hc : c ≠ 125) :
    Untagged 33 (· == 125) (w ++ [c]) := by
  rw [Untagged, List.isChain_append]
  refine ⟨?_, List.isChain_singleton _, ?_⟩
  · refine (List.isChain_isInfix w).imp fun a b hab ha => ?_
    subst ha
    have hb : b ≠ 125 := fun e => h.no_end (e ▸ hab)
    simpa using hb
  · intro a _ b hb _
    cases hb
    simpa using hc

/-- The character behind the first one of a line, which `r` follows. -/
theorem CLine.next {c a₀ : UInt8} {v r : Bytes} (h : CLine (c :: v)) (hr : r.head? = some a₀)
    (ha₀ : isExpand a₀ = false) (h125 : a₀ ≠ 125) :
    ∃ a, (v ++ r).head? = some a ∧ isExpand a = false ∧ (c = 33 → a ≠ 125) := by
  cases v with
  | nil => exact ⟨a₀, hr, ha₀, fun _ => h125⟩
  | cons a v =>
    refine ⟨a, rfl, h.plain a (by simp), fun hc ha => h.no_end ?_⟩
    subst hc ha
    exact ⟨[], v, rfl⟩

theorem VerbatimText.cLine {s w : Bytes} (h : VerbatimText s) (hw : w ∈ linesOf s) : CLine w := by
  have hin : w <:+: s := by
    rw [← joinLines_splitLines s]
    rcases List.mem_append.mp hw with hw | hw
    · obtain ⟨a, b, hab⟩ := mem_joinLines hw (splitLines s).2
      exact ⟨a, 10 :: b, by rw [hab]; simp⟩
    · rw [List.mem_singleton.mp hw]
      exact ⟨_, [], List.append_nil _⟩
  obtain ⟨hlines, hrest⟩ := newline_not_mem_splitLines s
  refine ⟨fun hm => (h.source 0 (hin.subset hm)).1 rfl, fun b hb => (h.source b (hin.subset hb)).2,
    ?_, fun hi => h.no_end (hi.trans hin), h.short w hw⟩
  rcases List.mem_append.mp hw with hw | hw
  · exact hlines w hw
  · rw [List.mem_singleton.mp hw]
    exact hrest

/-- Lines of blanks are gaps. -/
theorem dropWhile_gap_blank {w : Bytes} (hw : w.dropWhile isblank = []) (s : Bytes) :
    (w ++ s).dropWhile isGap = s.dropWhile isGap := by
  induction w with
  | nil => rfl
  | cons b w ih =>
    have hb : isblank b = true := List.dropWhile_eq_nil_iff.mp hw b List.mem_cons_self
    rw [List.dropWhile_cons_of_pos hb] at hw
    rw [List.cons_append, List.dropWhile_cons_of_pos (by simp [isGap, hb]), ih hw]

theorem dropWhile_gap_line {w v : Bytes} {c : UInt8} (hw : w.dropWhile isblank = c :: v)
    (hc : c ≠ 10) (s : Bytes) : (w ++ s).dropWhile isGap = c :: (v ++ s) := by
  induction w with
  | nil => cases hw
  | cons b w ih =>
    cases hb : isblank b with
    | true =>
      rw [List.dropWhile_cons_of_pos hb] at hw
      rw [List.cons_append, List.dropWhile_cons_of_pos (by simp [isGap, hb]), ih hw]
    | false =>
      rw [List.dropWhile_cons_of_neg (by simp [hb])] at hw
      cases hw
      rw [List.cons_append, List.dropWhile_cons_of_neg (by simp [isGap, hb, hc])]

namespace Lexer

variable {l : Lexer} {s t u w v : Bytes} {c a : UInt8} {goto : Lexer → Lexeme × Lexer}

section

variable (hblock : l.block = 33)
include hblock

/-- A line begins at its first character that is no blank. When this is a `!`, the next character is
looked at and pushed back before the loop looks at both again. -/
theorem scan_verbatim (hs : s.dropWhile isGap = c :: u) (hc : isExpand c = false)
    (hu : u.head? = some a) (ha : isExpand a = false) (hend : c = 33 → a ≠ 125) :
    scan goto (l.reading s) = (l.reading u).verbatimLine (l.reading u).room c := by
  by_cases h33 : c = 33
  · subst h33
    have hroom := lt_room l u
    obtain ⟨a', t, hget, ha', hback⟩ := lgetc_reading (l := l) hu ha
    have hne : a' ≠ 125 := by
      rcases ha' with rfl | rfl
      · exact hend rfl
      · decide
    rw [scan_block (by rw [hs, hblock]) (by rw [hblock]; decide) (by rw [hblock]; rfl) hget hne,
      hblock]
    obtain ⟨k, hk⟩ := Nat.exists_eq_succ_of_ne_zero (show (l.reading u).room ≠ 0 by omega)
    simp only [content, lungetc_inDefine, lungetc_block, reading_block, reading_inDefine, hblock]
    simp only [verbatimLine, hk, lineLoop, hget, hback]
    simp
  · rw [scan_reading hs hc (by simp [hblock, h33])]
    simp [content, hblock]

omit hblock in
theorem cstr_squeeze (h : 0 ∉ w) (run : Bool) : cstr (squeeze run w) = squeeze run w := by
  refine cstr_eq_self fun hm => ?_
  rcases mem_squeeze hm with hm | hm
  · cases hm
  · exact h hm

/-- **One line** that is not empty: it is a `STRING`. -/
theorem scan_nonempty_line {r : Bytes} {l' : Lexer} (hw : w.dropWhile isblank = c :: v)
    (h : CLine w) (hend : LineEnd 33 (· == 125) l a r l') (ha : a ≠ 125) :
    scan goto (l.reading (w ++ r)) = (.token (.STRING (squeeze true w)), l') := by
  have hv : CLine (c :: v) := h.of_suffix (hw ▸ List.dropWhile_suffix isblank)
  have hb : isblank c = false := Scanner.not_isblank_of_dropWhile hw
  have hc10 : c ≠ 10 := fun e => hv.newline (e ▸ List.mem_cons_self)
  obtain ⟨b, hu, hb', hne⟩ := hv.next hend.head hend.plain ha
  have hroom := lt_room l (v ++ r)
  simp only [List.length_append] at hroom
  rw [scan_verbatim hblock (dropWhile_gap_line hw hc10 _)
    (hv.plain c List.mem_cons_self) hu hb' hne, verbatimLine,
    lineLoop_end (by decide) (by decide) hend (by omega) hb hv.plain hv.newline (hv.untagged ha)
      hv.short, Ended.lexeme, cstr_squeeze hv.zero, squeeze_true, hw]

/-- The end mark, when it has been pushed back. -/
theorem scan_pushed_end :
    scan goto (((l.reading t).lungetc (some 125)).lungetc (some 33))
      = (.token .BANG, { l.reading t with block := 0 }) := by
  have hroom : ∃ k, (((l.reading t).lungetc (some 125)).lungetc (some 33)).room = k + 1 := ⟨_, rfl⟩
  obtain ⟨k, hk⟩ := hroom
  rw [scan, hk, skip]
  simp [lgetc, lungetc, File.igetc, reading, isExpand, isblank, hblock]

/-! ## The run over a block -/

/-- What `yylex` returns in front of the lines `ls` and the last line `r` of a block. -/
def firstLine (l : Lexer) (rest : Bytes) : List Bytes → Bytes → Lexeme × Lexer
  | [], r =>
    if squeeze true r = [] then (.token .BANG, { l.reading rest with block := 0 })
    else (.token (.STRING (squeeze true r)),
      ((l.reading rest).lungetc (some 125)).lungetc (some 33))
  | w :: ls, r =>
    if squeeze true w = [] then firstLine l rest ls r
    else (.token (.STRING (squeeze true w)), l.reading (joinLines ls (r ++ 33 :: 125 :: rest)))

omit hblock in
theorem squeeze_eq_nil (h : w.dropWhile isblank = []) : squeeze true w = [] := by
  rw [squeeze_true, h]
  rfl

omit hblock in
theorem squeeze_ne_nil (h : w.dropWhile isblank = c :: v) : squeeze true w ≠ [] := by
  rw [Scanner.squeeze_of_dropWhile h]
  simp

variable {ls : List Bytes} {r rest : Bytes}

omit hblock in
theorem ahead_block (hls : ∀ w ∈ ls, CLine w) (hr : CLine r) :
    Ahead (joinLines ls (r ++ 33 :: 125 :: rest)) := by
  induction ls with
  | nil => exact Ahead.append (w := r) hr.plain ⟨33, 125 :: rest, rfl, rfl⟩
  | cons w ls ih =>
    rw [joinLines_cons]
    refine Ahead.append (hls w List.mem_cons_self).plain (Ahead.append (w := [10]) ?_ ?_)
    · simp [Plain, isExpand]
    · exact ih fun x hx => hls x (List.mem_cons_of_mem _ hx)

theorem scan_firstLine (hls : ∀ w ∈ ls, CLine w) (hr : CLine r) :
    scan goto (l.reading (joinLines ls (r ++ 33 :: 125 :: rest))) = firstLine l rest ls r := by
  induction ls with
  | nil =>
    have hjoin : joinLines [] (r ++ 33 :: 125 :: rest) = r ++ 33 :: 125 :: rest := rfl
    rw [hjoin, firstLine]
    cases hw : r.dropWhile isblank with
    | nil =>
      rw [if_pos (squeeze_eq_nil hw), scan_close (t := rest)
        (by rw [dropWhile_gap_blank hw, hblock]; rfl) (by rw [hblock]; decide)
          (by rw [hblock]; rfl), hblock]
      rfl
    | cons c v =>
      rw [if_neg (squeeze_ne_nil hw), scan_nonempty_line hblock hw hr
        (lineEnd_tag (x := 125) (by decide) (by decide) rfl (by decide) (by decide) rest)
          (by decide)]
  | cons w ls ih =>
    have hls' : ∀ x ∈ ls, CLine x := fun x hx => hls x (List.mem_cons_of_mem _ hx)
    rw [joinLines_cons, firstLine]
    cases hw : w.dropWhile isblank with
    | nil =>
      have hgap := dropWhile_gap_blank hw (10 :: joinLines ls (r ++ 33 :: 125 :: rest))
      rw [List.dropWhile_cons_of_pos (p := isGap) rfl] at hgap
      rw [if_pos (squeeze_eq_nil hw), ← ih hls', scan_gap (ahead_block hls' hr) hgap.symm]
    | cons c v =>
      rw [if_neg (squeeze_ne_nil hw), scan_nonempty_line hblock hw (hls w List.mem_cons_self)
        (lineEnd_newline (by decide) _) (by decide)]

/-- **The run over a block**: its lines with their blanks squeezed, without the empty ones. -/
theorem lexStrings_block (hls : ∀ w ∈ ls, CLine w) (hr : CLine r) : ∀ n, ls.length + 1 < n →
    lexStrings n (l.reading (joinLines ls (r ++ 33 :: 125 :: rest)))
      = (((ls ++ [r]).map (squeeze true)).filter (!·.isEmpty), .token .BANG,
          { l.reading rest with block := 0 }) := by
  have hyylex : ∀ l' : Lexer, l'.block = 33 → l'.yylex = scan (newblock l'.room) l' := by
    intro l' h
    simp [yylex, h]
  have hfirst : ∀ ls : List Bytes, (∀ w ∈ ls, CLine w) →
      (l.reading (joinLines ls (r ++ 33 :: 125 :: rest))).yylex = firstLine l rest ls r := by
    intro ls hls
    rw [hyylex (l.reading _) hblock, scan_firstLine hblock hls hr]
  induction ls with
  | nil =>
    intro n hn
    obtain ⟨n, rfl⟩ := Nat.exists_eq_add_of_le' (show 2 ≤ n by simp at hn; omega)
    rw [lexStrings, hfirst [] hls, firstLine]
    by_cases hw : squeeze true r = []
    · rw [if_pos hw]
      simp [hw]
    · rw [if_neg hw]
      simp only [lexStrings]
      rw [hyylex _ (by simpa using hblock), scan_pushed_end hblock]
      simp [hw]
  | cons w ls ih =>
    have hls' : ∀ x ∈ ls, CLine x := fun x hx => hls x (List.mem_cons_of_mem _ hx)
    intro n hn
    simp only [List.length_cons] at hn
    obtain ⟨n, rfl⟩ := Nat.exists_eq_succ_of_ne_zero (show n ≠ 0 by omega)
    by_cases hw : squeeze true w = []
    · -- an empty line: the call returns the first line of the rest
      have hrest := ih hls' (n + 1) (by omega)
      rw [lexStrings, hfirst ls hls'] at hrest
      rw [lexStrings, hfirst (w :: ls) hls, firstLine, if_pos hw, hrest]
      simp [hw]
    · rw [lexStrings, hfirst (w :: ls) hls, firstLine, if_neg hw]
      simp only [ih hls' n (by omega)]
      simp [hw]

end

end Lexer

/-! ## The block -/

theorem filter_squeeze {p : UInt8 → Bool} (hp : ∀ b, isblank b = true → p b = false) (run : Bool)
    (w : Bytes) : (squeeze run w).filter p = w.filter p := by
  induction w generalizing run with
  | nil => rfl
  | cons b w ih =>
    cases hb : isblank b with
    | false => rw [squeeze_cons hb, List.filter_cons, List.filter_cons, ih]
    | true =>
      rw [List.filter_cons_of_neg (by simp [hp b hb])]
      cases run with
      | true => rw [squeeze_run hb, ih]
      | false => rw [squeeze_blank hb, List.filter_cons_of_neg (by simp [hp 32 rfl]), ih]

/-- Apart from blanks and newlines, all characters are there. -/
theorem filter_squeezedLines (ls : List Bytes) :
    (Scanner.squeezedLines ls).filter (!isGap ·) = ls.flatMap (·.filter (!isGap ·)) := by
  have hblank : ∀ b, isblank b = true → (!isGap b) = false := fun b hb => by simp [isGap, hb]
  induction ls with
  | nil => rfl
  | cons w ls ih =>
    have hw := filter_squeeze hblank true w
    cases hd : w.dropWhile isblank with
    | nil =>
      rw [Lexer.squeeze_eq_nil hd] at hw
      rw [Scanner.squeezedLines_blank hd, ih, List.flatMap_cons, ← hw]
      rfl
    | cons c v =>
      rw [Scanner.squeeze_of_dropWhile hd] at hw
      rw [Scanner.squeezedLines_cons hd, List.filter_append, hw,
        List.filter_cons_of_neg (by decide), ih, List.flatMap_cons]

theorem filter_joinLines (ls : List Bytes) (r : Bytes) :
    (joinLines ls r).filter (!isGap ·) = (ls ++ [r]).flatMap (·.filter (!isGap ·)) := by
  induction ls with
  | nil => simp [joinLines]
  | cons w ls ih =>
    rw [joinLines_cons, List.filter_append, List.filter_cons_of_neg (by decide), ih]
    rfl

/-- **Literal C code stays literal where its blanks may be squeezed.** The lexer is behind the `{!`
of a block with the text `s`. The strings up to its end mark are what `verbatim1` prints; apart from
blanks and newlines all characters of `s` are in it. It has the tokens of `s`, line by line, if the
blanks that were squeezed or dropped mean nothing in `s`; and where `s` continues no line, only
then. -/
theorem verbatim_literal (l : Lexer) (hblock : l.block = 33) (hunget : l.file.ungetbuf = [])
    (s rest : Bytes) (hs : VerbatimText s) (hstream : l.file.stream = s ++ 33 :: 125 :: rest)
    (n : Nat) (hn : (linesOf s).length < n) :
    ∃ v l', l.lexStrings n = (v, .token .BANG, l') ∧ l'.file.stream = rest ∧
      (Verbatim.text v).filter (!isGap ·) = s.filter (!isGap ·) ∧
      (BlanksKept s → cLines (Verbatim.text v) = cLines s) ∧
      (¬ [92, 10] <:+: s → s.getLast? ≠ some 92 → cLines (Verbatim.text v) = cLines s →
        BlanksKept s) := by
  have hsplit := joinLines_splitLines s
  have hlines : ∀ w ∈ (splitLines s).1, CLine w := fun w hw =>
    hs.cLine (List.mem_append_left _ hw)
  have hlast : CLine (splitLines s).2 := hs.cLine (List.mem_append_right _ List.mem_cons_self)
  have hrun :=
    @Lexer.lexStrings_block l hblock (splitLines s).1 (splitLines s).2 rest hlines hlast n
    (by simpa [linesOf] using hn)
  have hjoin : joinLines (splitLines s).1 ((splitLines s).2 ++ 33 :: 125 :: rest)
      = s ++ 33 :: 125 :: rest := by
    rw [joinLines, ← List.append_assoc, ← joinLines, hsplit]
  rw [hjoin, ← hstream, ← Lexer.eq_reading hunget rfl] at hrun
  have htext : Verbatim.text (((linesOf s).map (squeeze true)).filter (!·.isEmpty))
      = Scanner.squeezedLines (linesOf s) := by
    simp [Verbatim.text, Verbatim.lines, Scanner.squeezedLines]
  refine ⟨((linesOf s).map (squeeze true)).filter (!·.isEmpty), _, hrun, rfl, ?_, ?_, ?_⟩
  · rw [htext, filter_squeezedLines, linesOf, ← filter_joinLines, hsplit]
  · intro hkept
    have hclose := Scanner.close_squeezedLines (q := Scanner.start true) rfl hkept
    rw [htext, cLines, cLines, linesOf, hclose, hsplit]
  · intro hsplice hend htok
    obtain ⟨hno10, hlast10⟩ := newline_not_mem_splitLines s
    have hfresh : (Scanner.start true).Fresh := ⟨rfl, Or.inl ⟨rfl, rfl⟩⟩
    refine Scanner.textSpaced_of_tokens rfl hfresh
      (fun w hw => ⟨fun h92 => ?_, hno10 w hw⟩) ?_ hlast10 ?_
    · -- a line that ends with a backslash
      obtain ⟨a, b, hab⟩ := mem_joinLines hw (splitLines s).2
      obtain ⟨w', rfl⟩ := List.getLast?_eq_some_iff.mp h92
      exact hsplice ⟨a ++ w', b, by rw [← hsplit, hab]; simp⟩
    · intro h92
      apply hend
      rw [← hsplit, joinLines, List.getLast?_append, h92]
      rfl
    · rw [htext, cLines, cLines] at htok
      rw [Scanner.tokens_close (by simp [Scanner.start]),
        Scanner.tokens_close (by simp [Scanner.start]), hsplit]
      exact congrArg List.flatten htok

/-- The lexer in a verbatim block, in front of `s`. -/
def inVerbatim (s : Bytes) : Lexer := ⟨⟨[], s, false⟩, [], true, 33, []⟩

/-- A block with blanks in all places but literals, and a `!` in front of the end mark. -/
def exampleVerbatim : Bytes := lit "\ta\n\n  f(\"b !\");  !"

theorem verbatim_kept :
    ∃ v l', (inVerbatim (exampleVerbatim ++ lit "!\x7d\n")).lexStrings 5 = (v, .token .BANG, l') ∧
      l'.file.stream = lit "\n" ∧ cLines (Verbatim.text v) = cLines exampleVerbatim := by
  obtain ⟨v, l', hv, hl, -, hkept, -⟩ := verbatim_literal
    (inVerbatim (exampleVerbatim ++ lit "!\x7d\n")) rfl rfl exampleVerbatim (lit "\n") (by decide)
    (by decide) 5 (by decide)
  exact ⟨v, l', hv, hl, hkept (by decide +kernel)⟩

/-- The two blanks of a string become one. -/
theorem verbatim_blank_lost :
    VerbatimText (lit "puts(\"a  b\");") ∧
    ∃ l', (inVerbatim (lit "puts(\"a  b\");" ++ lit "!\x7d")).lexStrings 3
        = ([lit "puts(\"a b\");"], .token .BANG, l') ∧
      cLines (Verbatim.text [lit "puts(\"a b\");"]) ≠ cLines (lit "puts(\"a  b\");") :=
  ⟨by decide, ⟨⟨[], [], false⟩, [], true, 0, []⟩, by decide, by decide⟩

end Tmpl

end Galileo
