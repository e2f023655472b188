import Galileo.Lib.Lines
import Galileo.Proof.Lexer
import Mathlib.Data.List.Infix

/-!
# Text between tags

A line of text in a block is one `STRING`, and braces in it that do not make a tag are kept: the
loop of `yylex` holds a `{` back for one character. But the first character of a line is looked at
in another place: there `{` is a `goto newblock`, which reads one more character and, when that
makes no tag, goes on behind it. So a line is kept **unless it begins with a brace**
(`raw_text_kept_iff`); of a line that does, the brace and the next character are gone, again and
again until something else is first (`kept`).
-/

set_option autoImplicit false

namespace Galileo

open Lib

namespace Tmpl

/-- What a line of text becomes: no blanks in front, one space for a run of blanks. -/
def Normal (w : Bytes) : Bytes := squeeze true w

/-- A line of text: printable characters and blanks, no tag, shorter than `buf`. -/
structure TextLine (w : Bytes) : Prop where
  printable : ∀ b ∈ w, iscntrl b = false ∨ b = 9
  no_open : ¬ [123, 123] <:+: w
  no_bang : ¬ [123, 33] <:+: w
  short : w.length < bufSize

instance (w : Bytes) : Decidable (TextLine w) :=
  decidable_of_iff ((w.all fun b => !iscntrl b || b == 9) = true ∧ ¬ [123, 123] <:+: w ∧
    ¬ [123, 33] <:+: w ∧ w.length < bufSize)
    ⟨fun h => ⟨by simpa using h.1, h.2.1, h.2.2.1, h.2.2.2⟩,
      fun h => ⟨by simpa using h.1, h.2, h.3, h.4⟩⟩

/-- What `yylex` keeps of a line of text. -/
def kept : Bytes → Bytes
  | [] => []
  | [b] => if isblank b || b == 123 then [] else [b]
  | b :: x :: w =>
      if isblank b then kept (x :: w)
      else if b == 123 then kept w
      else squeeze false (b :: x :: w)

section Kept

variable {b : UInt8} {w : Bytes}

theorem kept_blank (hb : isblank b = true) (w : Bytes) : kept (b :: w) = kept w := by
  cases w with
  | nil => simp [kept, hb]
  | cons x w => simp [kept, hb]

theorem kept_char (hb : isblank b = false) (hbrace : b ≠ 123) (w : Bytes) :
    kept (b :: w) = squeeze false (b :: w) := by
  cases w with
  | nil => simp [kept, hb, hbrace, squeeze]
  | cons x w => simp [kept, hb, hbrace]

theorem kept_brace (w : Bytes) : kept (123 :: w) = kept w.tail := by
  cases w with
  | nil => rfl
  | cons x w => simp [kept, isblank]

theorem kept_eq_normal (h : (w.dropWhile isblank).head? ≠ some 123) : kept w = Normal w := by
  induction w with
  | nil => rfl
  | cons b w ih =>
    cases hb : isblank b with
    | true =>
      rw [List.dropWhile_cons_of_pos hb] at h
      rw [kept_blank hb, ih h, Normal, Normal, squeeze_run hb]
    | false =>
      rw [List.dropWhile_cons_of_neg (by simp [hb])] at h
      have hbrace : b ≠ 123 := by simpa using h
      rw [kept_char hb hbrace, Normal, squeeze_cons hb, squeeze_cons hb]

theorem length_normal_tail_le (w : Bytes) : (Normal w.tail).length ≤ (squeeze false w).length := by
  cases w with
  | nil => exact Nat.le_refl _
  | cons x w =>
    have htrue := length_squeeze_true_le w
    cases hx : isblank x with
    | true => rw [squeeze_blank hx]; simp [Normal]
    | false =>
      rw [squeeze_cons hx, Normal, List.tail_cons, List.length_cons]
      omega

theorem length_kept_le (n : Nat) : ∀ w : Bytes, w.length ≤ n →
    (kept w).length ≤ (Normal w).length := by
  induction n with
  | zero =>
    intro w hw
    rw [List.eq_nil_of_length_eq_zero (Nat.le_zero.mp hw)]
    exact Nat.le_refl _
  | succ n ih =>
    intro w hw
    by_cases h : (w.dropWhile isblank).head? = some 123
    · cases w with
      | nil => cases h
      | cons b w =>
        have hlen : w.length ≤ n := by simpa using hw
        cases hb : isblank b with
        | true =>
          rw [kept_blank hb, Normal, squeeze_run hb]
          exact ih w hlen
        | false =>
          rw [List.dropWhile_cons_of_neg (by simp [hb])] at h
          cases h
          have htail := ih w.tail (by simp; omega)
          have hnormal := length_normal_tail_le w
          rw [kept_brace, Normal, squeeze_cons hb, List.length_cons]
          omega
    · rw [kept_eq_normal h]

/-- A line that begins with a brace loses something. -/
theorem length_kept_lt (h : (w.dropWhile isblank).head? = some 123) :
    (kept w).length < (Normal w).length := by
  induction w with
  | nil => cases h
  | cons b w ih =>
    cases hb : isblank b with
    | true =>
      rw [List.dropWhile_cons_of_pos hb] at h
      rw [kept_blank hb, Normal, squeeze_run hb]
      exact ih h
    | false =>
      rw [List.dropWhile_cons_of_neg (by simp [hb])] at h
      cases h
      have htail := length_kept_le _ w.tail (Nat.le_refl _)
      have hnormal := length_normal_tail_le w
      rw [kept_brace, Normal, squeeze_cons hb, List.length_cons]
      omega

/-- For a whole text, what is kept is the normal form iff no line begins with a brace. -/
theorem flatMap_kept_eq_iff (ls : List Bytes) :
    ls.flatMap kept = ls.flatMap Normal ↔ ∀ w ∈ ls, (w.dropWhile isblank).head? ≠ some 123 := by
  constructor
  · have hle : ∀ ls : List Bytes, (ls.flatMap kept).length ≤ (ls.flatMap Normal).length := by
      intro ls
      induction ls with
      | nil => exact Nat.le_refl _
      | cons w ls ih =>
        have hw := length_kept_le _ w (Nat.le_refl _)
        simp only [List.flatMap_cons, List.length_append]
        omega
    intro heq w hw h
    obtain ⟨as, bs, rfl⟩ := List.append_of_mem hw
    have hlen := congrArg List.length heq
    have has := hle as
    have hbs := hle bs
    have hlt := length_kept_lt h
    simp only [List.flatMap_append, List.flatMap_cons, List.length_append] at hlen
    omega
  · intro h
    exact List.flatMap_congr fun w hw => kept_eq_normal (h w hw)

end Kept

/-! ## Lexing a line -/

namespace TextLine

variable {w v : Bytes}

theorem of_suffix (h : TextLine w) (hv : v <:+ w) : TextLine v where
  printable b hb := h.printable b (hv.subset hb)
  no_open hi := h.no_open (hi.trans hv.isInfix)
  no_bang hi := h.no_bang (hi.trans hv.isInfix)
  short := Nat.lt_of_le_of_lt hv.length_le h.short

theorem not_mem (h : TextLine w) {b : UInt8} (hb : iscntrl b = true) (h9 : b ≠ 9) : b ∉ w := by
  intro hm
  rcases h.printable b hm with hc | hc
  · rw [hb] at hc
    cases hc
  · exact h9 hc

theorem plain (h : TextLine w) : Plain w := by
  intro b hb
  have h1 : b ≠ 1 := fun e => h.not_mem (by decide) (by decide) (e ▸ hb)
  have h2 : b ≠ 2 := fun e => h.not_mem (by decide) (by decide) (e ▸ hb)
  simp [isExpand, h1, h2]

theorem untagged (h : TextLine w) :
    Untagged 123 (fun c => c == 33 || c == 123) (w ++ [10]) := by
  rw [Untagged, List.isChain_append]
  refine ⟨?_, List.isChain_singleton _, ?_⟩
  · refine (List.isChain_isInfix w).imp fun a b hab ha => ?_
    subst ha
    have hbang : b ≠ 33 := fun e => h.no_bang (e ▸ hab)
    have hopen : b ≠ 123 := fun e => h.no_open (e ▸ hab)
    simp [hbang, hopen]
  · intro a _ b hb _
    cases hb
    rfl

end TextLine

section Body

variable {l : Lexer} {s t w : Bytes} {b c : UInt8} {goto : Lexer → Lexeme × Lexer}

namespace Lexer

theorem rawText_line {n : Nat} (hn : 2 * (w.length + 1) + 1 < n) (hc : isblank c = false)
    (hline : TextLine (c :: w)) :
    (l.reading (w ++ 10 :: t)).rawText n c
      = (.token (.STRING (squeeze false (c :: w))), l.reading t) := by
  rw [rawText, lineLoop_end (by decide) (by decide) (lineEnd_newline (by decide) t) hn hc
    hline.plain (hline.not_mem (by decide) (by decide)) hline.untagged hline.short]
  have hzero : 0 ∉ squeeze false (c :: w) := by
    intro h
    rcases mem_squeeze h with h | h
    · cases h
    · exact hline.not_mem (by decide) (by decide) h
  rw [Ended.lexeme, cstr_eq_self hzero]

/-- The character behind a brace that begins a line is skipped with it. -/
theorem newblock_char (hb : isExpand b = false) (h1 : b ≠ 123) (h2 : b ≠ 33) (hs : Ahead s)
    (n : Nat) :
    newblock (n + 1) (l.reading (b :: s)) = scan (newblock n) (l.reading s) := by
  cases hblank : isblank b with
  | true =>
    rw [newblock, lgetc_blank hblank]
    exact scan_gap hs (dropWhile_dropWhile_of_imp (fun a ha => by simp [isGap, ha]) s).symm
  | false =>
    rw [newblock, lgetc_char hb hblank]
    split <;> simp_all

variable (hdef : l.inDefine = true) (hblock : l.block = 0)
include hdef hblock

theorem content_text (n : Nat) (hc : c ≠ 123) :
    content n goto c (l.reading s) = (l.reading s).rawText n c := by
  simp [content, hdef, hblock, hc]

theorem scan_brace : scan goto (l.reading (123 :: s)) = goto (l.reading s) := by
  rw [scan_reading (c := 123) (t := s) rfl (by decide) (by simp [hblock])]
  simp [content, hdef, hblock]

/-- **One line of text**: what is kept of it is a token, and if nothing is kept the lexer goes on
with the rest of the text. -/
theorem scan_line {X : Lexeme × Lexer} (ht : Ahead t)
    (hX : ∀ m, t.length < m → scan (newblock m) (l.reading t) = X) (k : Nat) : ∀ w : Bytes,
    w.length ≤ k → TextLine w → ∀ n, (w ++ 10 :: t).length < n →
      scan (newblock n) (l.reading (w ++ 10 :: t))
        = if kept w = [] then X else (.token (.STRING (kept w)), l.reading t) := by
  have hnl : Ahead (10 :: t) := Ahead.append (w := [10]) (by simp [Plain, isExpand]) ht
  induction k with
  | zero =>
    intro w hw _ n hn
    rw [List.eq_nil_of_length_eq_zero (Nat.le_zero.mp hw)] at hn ⊢
    rw [List.nil_append, scan_gap ht (List.dropWhile_cons_of_pos rfl).symm]
    exact hX n (by simp only [List.nil_append, List.length_cons] at hn; omega)
  | succ k ih =>
    intro w hw hline n hn
    cases w with
    | nil =>
      rw [List.nil_append, scan_gap ht (List.dropWhile_cons_of_pos rfl).symm]
      exact hX n (by simp only [List.nil_append, List.length_cons] at hn; omega)
    | cons b w =>
      have hw' : w.length ≤ k := by simpa using hw
      have hline' : TextLine w := hline.of_suffix (List.suffix_cons b w)
      have hahead : Ahead (w ++ 10 :: t) := Ahead.append hline'.plain hnl
      simp only [List.cons_append, List.length_cons] at hn ⊢
      cases hb : isblank b with
      | true =>
        rw [kept_blank hb, scan_gap hahead (List.dropWhile_cons_of_pos (by simp [isGap, hb])).symm]
        exact ih w hw' hline' n (by omega)
      | false =>
        by_cases hbrace : b = 123
        · subst hbrace
          obtain ⟨n, rfl⟩ := Nat.exists_eq_succ_of_ne_zero (show n ≠ 0 by omega)
          rw [scan_brace hdef hblock, kept_brace]
          cases w with
          | nil =>
            rw [List.nil_append, newblock_char (by decide) (by decide) (by decide) ht]
            exact hX n (by simp only [List.nil_append, List.length_cons] at hn; omega)
          | cons x r =>
            have hx1 : x ≠ 123 := fun e => hline.no_open (e ▸ ⟨[], r, rfl⟩)
            have hx2 : x ≠ 33 := fun e => hline.no_bang (e ▸ ⟨[], r, rfl⟩)
            have hr : TextLine r := hline'.of_suffix (List.suffix_cons x r)
            rw [List.cons_append, newblock_char (hline'.plain x List.mem_cons_self) hx1 hx2
              (Ahead.append hr.plain hnl)]
            exact ih r (by simp only [List.length_cons] at hw'; omega) hr n
              (by simp only [List.cons_append, List.length_cons] at hn; omega)
        · have hgap : isGap b = false := by
            have h10 : b ≠ 10 := fun e =>
              hline.not_mem (b := 10) (by decide) (by decide) (e ▸ List.mem_cons_self)
            simp [isGap, hb, h10]
          have hroom : 2 * (w.length + 1) + 1 < (l.reading (w ++ 10 :: t)).room := by
            have hlt := lt_room l (w ++ 10 :: t)
            simp only [List.length_cons, List.length_append] at hlt
            omega
          rw [scan_reading (List.dropWhile_cons_of_neg (by simp [hgap]))
            (hline.plain b List.mem_cons_self) (by simp [hblock]),
              content_text hdef hblock _ hbrace,
            rawText_line hroom hb hline, kept_char hb hbrace, if_neg (by simp [squeeze_cons hb])]

/-- What `yylex` returns in front of the lines `ls`, which a tag follows. -/
def firstToken (l : Lexer) (rest : Bytes) : List Bytes → Lexeme × Lexer
  | [] => (.token .OPEN, { l.reading rest with block := 125 })
  | w :: ls =>
    if kept w = [] then firstToken l rest ls
    else (.token (.STRING (kept w)), l.reading (joinLines ls (123 :: 123 :: rest)))

omit hdef hblock in
theorem ahead_joinLines (ls : List Bytes) (h : ∀ w ∈ ls, TextLine w) (rest : Bytes) :
    Ahead (joinLines ls (123 :: 123 :: rest)) := by
  induction ls with
  | nil => exact ⟨123, 123 :: rest, rfl, rfl⟩
  | cons w ls ih =>
    rw [joinLines_cons]
    refine Ahead.append (h w List.mem_cons_self).plain (Ahead.append (w := [10]) ?_ ?_)
    · simp [Plain, isExpand]
    · exact ih fun x hx => h x (List.mem_cons_of_mem _ hx)

theorem scan_lines {ls : List Bytes} (h : ∀ w ∈ ls, TextLine w) (rest : Bytes) :
    ∀ n, (joinLines ls (123 :: 123 :: rest)).length < n →
      scan (newblock n) (l.reading (joinLines ls (123 :: 123 :: rest))) = firstToken l rest ls := by
  induction ls with
  | nil =>
    intro n hn
    obtain ⟨n, rfl⟩ := Nat.exists_eq_succ_of_ne_zero (show n ≠ 0 by omega)
    rw [joinLines, List.flatMap_nil, List.nil_append, scan_brace hdef hblock, newblock,
      lgetc_char (by decide) (by decide)]
    rfl
  | cons w ls ih =>
    have hls : ∀ x ∈ ls, TextLine x := fun x hx => h x (List.mem_cons_of_mem _ hx)
    intro n hn
    rw [joinLines_cons] at hn ⊢
    exact scan_line hdef hblock (ahead_joinLines ls hls rest) (ih hls) w.length w (Nat.le_refl _)
      (h w List.mem_cons_self) n hn

/-- **The run over a text**: the tokens are what is kept of its lines, without the lines of which
nothing is, and then comes the tag behind the text. -/
theorem lexStrings_text {ls : List Bytes} (h : ∀ w ∈ ls, TextLine w) (rest : Bytes) :
    ∀ n, ls.length < n →
      lexStrings n (l.reading (joinLines ls (123 :: 123 :: rest)))
        = ((ls.map kept).filter (· ≠ []), .token .OPEN, { l.reading rest with block := 125 }) := by
  have hyylex : ∀ ls : List Bytes, (∀ w ∈ ls, TextLine w) →
      (l.reading (joinLines ls (123 :: 123 :: rest))).yylex = firstToken l rest ls := by
    intro ls hls
    have hroom := lt_room l (joinLines ls (123 :: 123 :: rest))
    rw [yylex, if_neg (by simp [hdef])]
    exact scan_lines hdef hblock hls rest _ (by omega)
  induction ls with
  | nil =>
    intro n hn
    obtain ⟨n, rfl⟩ := Nat.exists_eq_succ_of_ne_zero (show n ≠ 0 by omega)
    rw [lexStrings, hyylex [] h]
    rfl
  | cons w ls ih =>
    have hls : ∀ x ∈ ls, TextLine x := fun x hx => h x (List.mem_cons_of_mem _ hx)
    intro n hn
    obtain ⟨n, rfl⟩ := Nat.exists_eq_succ_of_ne_zero (show n ≠ 0 by omega)
    simp only [List.length_cons] at hn
    by_cases hk : kept w = []
    · -- nothing of this line is seen: the call returns the first token of the rest
      have hrest := ih hls (n + 1) (by omega)
      rw [lexStrings, hyylex ls hls] at hrest
      rw [lexStrings, hyylex (w :: ls) h, firstToken, if_pos hk, hrest]
      simp [hk]
    · rw [lexStrings, hyylex (w :: ls) h, firstToken, if_neg hk]
      simp only [ih hls n (by omega)]
      simp [hk]

end Lexer

end Body

/-! ## The text of a block -/

/-- **Text is kept unless a line begins with a brace.** The lexer is behind the `define` tag of a
block, the text is the lines `ls`, and a tag follows it. The strings `yylex` returns up to the tag
are together the text with its blanks squeezed, without newlines and without the blanks in front of
its lines, iff no line has a brace as the first character that is no blank. -/
theorem raw_text_kept_iff (l : Lexer) (hdef : l.inDefine = true) (hblock : l.block = 0)
    (hunget : l.file.ungetbuf = []) (ls : List Bytes) (hls : ∀ w ∈ ls, TextLine w) (rest : Bytes)
    (hstream : l.file.stream = joinLines ls (123 :: 123 :: rest)) (n : Nat) (hn : ls.length < n) :
    ∃ strings l', l.lexStrings n = (strings, .token .OPEN, l') ∧ l'.file.stream = rest ∧
      (strings.flatten = ls.flatMap (squeeze true) ↔
        ∀ w ∈ ls, (w.dropWhile isblank).head? ≠ some 123) := by
  refine ⟨(ls.map kept).filter (· ≠ []), { l.reading rest with block := 125 }, ?_, rfl, ?_⟩
  · rw [Lexer.eq_reading hunget hstream]
    exact Lexer.lexStrings_text hdef hblock hls rest n hn
  · have hflat : ((ls.map kept).filter (· ≠ [])).flatten = ls.flatMap kept := by
      rw [List.flatMap_def]
      exact List.flatten_filter_ne_nil
    rw [hflat]
    exact flatMap_kept_eq_iff ls

/-- The lexer in the block of a template that has the lines of `s` in it. -/
def inBlock (s : Bytes) : Lexer := ⟨⟨[], s, false⟩, [], true, 0, []⟩

/-- The lines `a { b` and `}`. -/
theorem raw_braces_kept :
    ∃ strings l',
      (inBlock (joinLines [lit "a \x7b b", lit "\x7d"] (lit "\x7b\x7b end"))).lexStrings 3
        = (strings, .token .OPEN, l') ∧ l'.file.stream = lit " end" ∧
      (strings.flatten = [lit "a \x7b b", lit "\x7d"].flatMap (squeeze true) ↔
        ∀ w ∈ [lit "a \x7b b", lit "\x7d"], (w.dropWhile isblank).head? ≠ some 123) :=
  raw_text_kept_iff (inBlock (joinLines [lit "a \x7b b", lit "\x7d"] (lit "\x7b\x7b end"))) rfl rfl
    rfl
    [lit "a \x7b b", lit "\x7d"] (by decide) (lit " end") (by decide) 3 (by decide)

/-- A line `{ color: red; }` comes out without its brace. -/
theorem leading_brace_lost :
    (∀ w ∈ [lit "\x7b color: red; \x7d"], TextLine w) ∧
    ∃ l', (inBlock (joinLines [lit "\x7b color: red; \x7d"] (lit "\x7b\x7b end"))).lexStrings 2
        = ([lit "color: red; \x7d"], .token .OPEN, l') ∧
      [lit "color: red; \x7d"].flatten ≠ [lit "\x7b color: red; \x7d"].flatMap (squeeze true) :=
  ⟨by decide, ⟨⟨[], lit " end", false⟩, [], true, 125, []⟩, by decide, by decide⟩

end Tmpl

end Galileo
