import Mathlib.Data.List.Chain
import Galileo.Model.Lexer

/-!
# Reading characters and lines

`l.reading s` is the lexer in front of the characters `s` with nothing pushed back. From there
`lgetc` gives the next character, or one space for a run of blanks, and a character that is pushed
back is the one it gives next (`lgetc_lungetc`). The two loops that read a line are one loop, and
one lemma says what it collects: the line with its blanks squeezed, whatever marks are in it that do
not make a tag (`lineLoop_line`).
-/

set_option autoImplicit false

namespace Galileo

open Lib

namespace Tmpl

variable {c : UInt8} {goto : Lexer → Lexeme × Lexer}

/-- Blanks and newlines: what is skipped in front of a token. -/
def isGap (c : UInt8) : Bool := isblank c || c == 10

/-- Characters that reach the loops of the lexer as they are. -/
def Plain (s : Bytes) : Prop := ∀ b ∈ s, isExpand b = false

theorem isExpand_of_blank (h : isblank c = true) : isExpand c = false := by
  simp only [isblank, Bool.or_eq_true, beq_iff_eq] at h
  rcases h with rfl | rfl <;> rfl

theorem isExpand_of_gap (h : isGap c = true) : isExpand c = false := by
  simp only [isGap, Bool.or_eq_true, beq_iff_eq] at h
  rcases h with h | rfl
  · exact isExpand_of_blank h
  · rfl

namespace Lexer

variable {l : Lexer} {s t w : Bytes}

def reading (l : Lexer) (s : Bytes) : Lexer :=
  { l with file := { l.file with ungetbuf := [], stream := s } }

@[simp] theorem reading_block (l : Lexer) (s : Bytes) : (l.reading s).block = l.block := rfl

@[simp] theorem reading_inDefine (l : Lexer) (s : Bytes) : (l.reading s).inDefine = l.inDefine :=
  rfl

@[simp] theorem reading_stream (l : Lexer) (s : Bytes) : (l.reading s).file.stream = s := rfl

@[simp] theorem lungetc_block (l : Lexer) (c : Option UInt8) : (l.lungetc c).block = l.block := by
  cases c <;> rfl

@[simp] theorem lungetc_inDefine (l : Lexer) (c : Option UInt8) :
    (l.lungetc c).inDefine = l.inDefine := by
  cases c <;> rfl

theorem eq_reading (h : l.file.ungetbuf = []) (hs : l.file.stream = s) : l = l.reading s := by
  obtain ⟨⟨u, f, e⟩, o, d, b, es⟩ := l
  cases h
  cases hs
  rfl

theorem lt_room (l : Lexer) (s : Bytes) : 2 * s.length + 3 < (l.reading s).room := by
  simp only [room, reading, List.map_cons, List.sum_cons, List.length_nil]
  omega

/-! ## One character -/

theorem lgetc_char (hc : isExpand c = false) (hb : isblank c = false) :
    (l.reading (c :: s)).lgetc = (some c, l.reading s) := by
  simp [lgetc, File.igetc, reading, hc, hb]

theorem lgetc_blank (hb : isblank c = true) :
    (l.reading (c :: s)).lgetc = (some 32, l.reading (s.dropWhile isblank)) := by
  simp [lgetc, File.igetc, reading, isExpand_of_blank hb, hb]

theorem lgetc_pushed (hc : isExpand c = false) (hb : isblank c = false) (u : Bytes) :
    Lexer.lgetc { l with file := { l.file with ungetbuf := c :: u } }
      = (some c, { l with file := { l.file with ungetbuf := u } }) := by
  simp [lgetc, File.igetc, hc, hb]

/-- The next character, and what is pushed back is what was read. For a blank the rest of the run
has gone from the stream, so the run is not read again. -/
theorem lgetc_reading (hs : s.head? = some c) (hc : isExpand c = false) :
    ∃ c' t, (l.reading s).lgetc = (some c', l.reading t) ∧ (c' = c ∨ c' = 32) ∧
      ((l.reading t).lungetc (some c')).lgetc = (some c', l.reading t) := by
  cases s with
  | nil => cases hs
  | cons b s =>
    cases hs
    cases hb : isblank c with
    | true =>
      refine ⟨32, s.dropWhile isblank, lgetc_blank hb, Or.inr rfl, ?_⟩
      have hdrop := dropWhile_dropWhile_of_imp (fun b (h : isblank b = true) => h) s
      simp [lgetc, lungetc, File.igetc, reading, isExpand, isblank, hdrop]
    | false =>
      exact ⟨c, s, lgetc_char hc hb,
        Or.inl rfl, by simp [lgetc, lungetc, File.igetc, reading, hc, hb]⟩

/-! ## In front of a token -/

theorem skip_reading : ∀ (n : Nat) {s : Bytes}, s.dropWhile isGap = c :: t → isExpand c = false →
    s.length < n →
      skip (fun c => isblank c || c == 10) n (l.reading s) = (some c, l.reading t) := by
  intro n
  induction n with
  | zero => intro s _ _ hn; omega
  | succ n ih =>
    intro s hs hc hn
    cases s with
    | nil => cases hs
    | cons b s =>
      cases hb : isGap b with
      | false =>
        rw [List.dropWhile_cons_of_neg (by simp [hb])] at hs
        cases hs
        have hblank : isblank c = false := by
          simp only [isGap, Bool.or_eq_false_iff] at hb
          exact hb.1
        have hgap : (isblank c || c == 10) = false := hb
        rw [skip, lgetc_char hc hblank]
        simp only [hgap, Bool.false_eq_true, if_false]
      | true =>
        rw [List.dropWhile_cons_of_pos hb] at hs
        have hgap : (isblank b || b == 10) = true := hb
        cases hblank : isblank b with
        | true =>
          have hrest : (s.dropWhile isblank).dropWhile isGap = c :: t := by
            rw [dropWhile_dropWhile_of_imp (fun a ha => by simp [isGap, ha]), hs]
          have hlen : (s.dropWhile isblank).length ≤ s.length :=
            (List.dropWhile_suffix isblank).length_le
          rw [skip, lgetc_blank hblank]
          exact ih hrest hc (by simp only [List.length_cons] at hn; omega)
        | false =>
          rw [skip, lgetc_char (isExpand_of_gap hb) hblank]
          simp only [hgap, if_true]
          exact ih hs hc (by simp only [List.length_cons] at hn; omega)

/-- The token is decided at the first character that is no blank and no newline. -/
theorem scan_reading (hs : s.dropWhile isGap = c :: t) (hc : isExpand c = false)
    (hb : (l.block != 0 && c == l.block) = false) :
    scan goto (l.reading s) = content (l.reading t).room goto c (l.reading t) := by
  have hroom := lt_room l s
  rw [scan, skip_reading _ hs hc (by omega)]
  simp [hb]

/-- A character that may begin the end of the block, and does not. -/
theorem scan_block {a : UInt8} (hs : s.dropWhile isGap = l.block :: t) (h0 : l.block ≠ 0)
    (hb : isExpand l.block = false) {l' : Lexer} (hget : (l.reading t).lgetc = (some a, l'))
    (ha : a ≠ 125) :
    scan goto (l.reading s) = content (l.reading t).room goto l.block (l'.lungetc (some a)) := by
  have hroom := lt_room l s
  have h0' : (l.block != 0) = true := by simpa using h0
  rw [scan, skip_reading _ hs hb (by omega)]
  simp only [reading_block, h0', beq_self_eq_true, Bool.and_self, if_true, hget]
  split
  · next heq => simp_all
  · next heq => simp_all

/-- The end of the block. -/
theorem scan_close (hs : s.dropWhile isGap = l.block :: 125 :: t) (h0 : l.block ≠ 0)
    (hb : isExpand l.block = false) :
    scan goto (l.reading s)
      = (.token (if l.block == 33 then .BANG else .CLOSE), { l.reading t with block := 0 }) := by
  have hroom := lt_room l s
  have h0' : (l.block != 0) = true := by simpa using h0
  rw [scan, skip_reading _ hs hb (by omega)]
  simp only [reading_block, h0', beq_self_eq_true, Bool.and_self, if_true]
  rw [lgetc_char (by decide) (by decide)]
  rfl

end Lexer

/-- There is a token in what is left. -/
def Ahead (s : Bytes) : Prop := ∃ c t, s.dropWhile isGap = c :: t ∧ isExpand c = false

theorem Ahead.append {w s : Bytes} (hw : Plain w) (hs : Ahead s) : Ahead (w ++ s) := by
  induction w with
  | nil => exact hs
  | cons b w ih =>
    have hrest := ih fun x hx => hw x (List.mem_cons_of_mem _ hx)
    cases hb : isGap b with
    | true => rwa [Ahead, List.cons_append, List.dropWhile_cons_of_pos hb]
    | false =>
      exact ⟨b, w ++ s, List.dropWhile_cons_of_neg (by simp [hb]), hw b List.mem_cons_self⟩

/-- Gaps in front of a token do not matter. -/
theorem Lexer.scan_gap {l : Lexer} {s t : Bytes} (hs : Ahead s)
    (h : s.dropWhile isGap = t.dropWhile isGap) :
    Lexer.scan goto (l.reading t) = Lexer.scan goto (l.reading s) := by
  obtain ⟨c, u, hc, hx⟩ := hs
  have hroom := Lexer.lt_room l s
  have hroom' := Lexer.lt_room l t
  rw [Lexer.scan, Lexer.scan, Lexer.skip_reading _ hc hx (by omega),
    Lexer.skip_reading _ (h ▸ hc) hx (by omega)]

/-! ## A line -/

section Line

variable {mark : UInt8} {tag : UInt8 → Bool} {l : Lexer}

/-- No mark in a line makes a tag. -/
def Untagged (mark : UInt8) (tag : UInt8 → Bool) (w : Bytes) : Prop :=
  w.IsChain fun a b => a = mark → tag b = false

/-- **What the loop collects of a line**: all of it, with the blanks squeezed. The rest `r` is where
the line ends, with a newline or a tag. -/
theorem lineLoop_line (hmark : isblank mark = false) (htag : tag 32 = false) {r : Bytes}
    (hr : r.head? = some c) (hrb : isblank c = false) (hrp : isExpand c = false) (k : Nat) :
    ∀ w : Bytes, w.length ≤ k → Plain w → 10 ∉ w → Untagged mark tag (w ++ [c]) →
    ∀ (n : Nat) (buf : Bytes), buf.length + w.length < bufSize → ∃ m, n ≤ m ∧
      lineLoop mark tag (2 * k + n) false (l.reading (w ++ r)).lgetc.1 buf
        (l.reading (w ++ r)).lgetc.2
        = lineLoop mark tag m false (l.reading r).lgetc.1 (buf ++ squeeze false w)
          (l.reading r).lgetc.2 := by
  induction k with
  | zero =>
    intro w hw _ _ _ n buf _
    have hnil : w = [] := List.eq_nil_of_length_eq_zero (Nat.le_zero.mp hw)
    subst hnil
    exact ⟨2 * 0 + n, by omega, by simp [squeeze]⟩
  | succ k ih =>
    intro w hw hp h10 hun n buf hbuf
    cases w with
    | nil => exact ⟨2 * (k + 1) + n, by omega, by simp [squeeze]⟩
    | cons b w =>
      have hbp : isExpand b = false := hp b List.mem_cons_self
      have hwp : Plain w := fun x hx => hp x (List.mem_cons_of_mem _ hx)
      have hb10 : b ≠ 10 := fun h => h10 (h ▸ List.mem_cons_self)
      have hw10 : 10 ∉ w := fun h => h10 (List.mem_cons_of_mem _ h)
      have hlen : w.length ≤ k := by simpa using hw
      have hun' : Untagged mark tag (w ++ [c]) := List.IsChain.tail hun
      have hroom : ¬ bufSize ≤ buf.length + 1 := by
        simp only [List.length_cons] at hbuf
        omega
      simp only [List.length_cons] at hbuf
      rw [show 2 * (k + 1) + n = (2 * k + (n + 1)) + 1 by omega, List.cons_append]
      cases hb : isblank b with
      | true =>
        -- the rest of the run is gone from the stream
        have hdrop := dropWhile_append_of_head (p := isblank) hr hrb w
        have hsuf : w.dropWhile isblank <:+ w := List.dropWhile_suffix isblank
        have hunr : Untagged mark tag (w.dropWhile isblank ++ [c]) := by
          obtain ⟨p, hp⟩ := hsuf
          have hsplit : w ++ [c] = p ++ (w.dropWhile isblank ++ [c]) := by
            rw [← List.append_assoc, hp]
          rw [Untagged, hsplit] at hun'
          exact hun'.right_of_append
        have hmark32 : (32 == mark) = false := by
          rw [beq_eq_false_iff_ne]
          intro h
          subst h
          cases hmark
        obtain ⟨m, hm, heq⟩ := ih (w.dropWhile isblank) (Nat.le_trans hsuf.length_le hlen)
          (fun x hx => hwp x (hsuf.subset hx)) (fun h => hw10 (hsuf.subset h)) hunr (n + 1)
            (buf ++ [32])
          (by have := hsuf.length_le; simp only [List.length_append, List.length_cons,
            List.length_nil]; omega)
        refine ⟨m, by omega, ?_⟩
        rw [Lexer.lgetc_blank hb, hdrop, lineLoop]
        simp only [Bool.false_eq_true, if_false, hmark32, hroom]
        rw [if_neg (by decide), heq, squeeze_blank hb, squeeze_true]
        simp
      | false =>
        have hb10' : (b == 10) = false := beq_eq_false_iff_ne.mpr hb10
        obtain ⟨m, hm, heq⟩ := ih w hlen hwp hw10 hun' n (buf ++ [b])
          (by simp only [List.length_append, List.length_cons, List.length_nil]; omega)
        obtain ⟨m', hm', heq'⟩ := ih w hlen hwp hw10 hun' (n + 1) (buf ++ [b])
          (by simp only [List.length_append, List.length_cons, List.length_nil]; omega)
        rw [Lexer.lgetc_char hbp hb, lineLoop]
        simp only [Bool.false_eq_true, if_false, hb10', hroom]
        by_cases hbm : b = mark
        · -- the mark is held back until the next character, pushed back itself, shows it is no tag
          subst hbm
          simp only [beq_self_eq_true, if_true]
          have hnext : ∃ a, (w ++ r).head? = some a ∧ isExpand a = false ∧ tag a = false := by
            cases w with
            | nil => exact ⟨c, hr, hrp, (List.isChain_cons_cons.mp hun).1 rfl⟩
            | cons a w =>
              exact ⟨a, rfl, hwp a List.mem_cons_self, (List.isChain_cons_cons.mp hun).1 rfl⟩
          obtain ⟨a, ha, hap, hat⟩ := hnext
          obtain ⟨c', t, hget, hc', hback⟩ := Lexer.lgetc_reading (l := l) ha hap
          have htag' : tag c' = false := by
            rcases hc' with rfl | rfl
            · exact hat
            · exact htag
          refine ⟨m, hm, ?_⟩
          rw [hget] at heq ⊢
          rw [show 2 * k + (n + 1) = (2 * k + n) + 1 by omega, lineLoop]
          simp only [if_true, htag', Bool.false_eq_true, if_false, hroom, hback]
          rw [heq, squeeze_cons hb]
          simp
        · rw [if_neg (by simpa using hbm)]
          refine ⟨m', by omega, ?_⟩
          rw [heq', squeeze_cons hb]
          simp

/-- Where a line ends: the loop stops in front of `r`, and the lexer is `l'` then. -/
structure LineEnd (mark : UInt8) (tag : UInt8 → Bool) (l : Lexer) (c : UInt8) (r : Bytes)
    (l' : Lexer) : Prop where
  head : r.head? = some c
  blank : isblank c = false
  plain : isExpand c = false
  stop : ∀ n buf, lineLoop mark tag (n + 2) false (l.reading r).lgetc.1 buf (l.reading r).lgetc.2
    = .text buf l'

/-- The newline is taken. -/
theorem lineEnd_newline (hmark : mark ≠ 10) (t : Bytes) :
    LineEnd mark tag l 10 (10 :: t) (l.reading t) where
  head := rfl
  blank := by decide
  plain := by decide
  stop n buf := by
    have hne : (10 == mark) = false := beq_eq_false_iff_ne.mpr (Ne.symm hmark)
    rw [Lexer.lgetc_char (by decide) (by decide), lineLoop]
    simp [hne]

/-- A tag is pushed back. -/
theorem lineEnd_tag (hmark : isblank mark = false) (hmarkp : isExpand mark = false) {x : UInt8}
    (hx : tag x = true) (hxb : isblank x = false) (hxp : isExpand x = false) (t : Bytes) :
    LineEnd mark tag l mark (mark :: x :: t)
      (((l.reading t).lungetc (some x)).lungetc (some mark)) where
  head := rfl
  blank := hmark
  plain := hmarkp
  stop n buf := by
    rw [Lexer.lgetc_char hmarkp hmark, lineLoop]
    simp only [Bool.false_eq_true, if_false, beq_self_eq_true, if_true]
    rw [Lexer.lgetc_char hxp hxb, lineLoop]
    simp [hx]

/-- **A line**, from its first character to its end. -/
theorem lineLoop_end (hmark : isblank mark = false) (htag : tag 32 = false) {a : UInt8}
    {r w : Bytes} {l' : Lexer} (hend : LineEnd mark tag l a r l') {n : Nat}
    (hn : 2 * (w.length + 1) + 1 < n) (hb : isblank c = false) (hp : Plain (c :: w))
    (h10 : 10 ∉ c :: w) (hun : Untagged mark tag (c :: w ++ [a]))
    (hlen : (c :: w).length < bufSize) :
    lineLoop mark tag n false (some c) [] (l.reading (w ++ r))
      = .text (squeeze false (c :: w)) l' := by
  obtain ⟨m, hm, heq⟩ := lineLoop_line (l := l) hmark htag hend.head hend.blank hend.plain
    (c :: w).length (c :: w) (Nat.le_refl _) hp h10 hun (n - 2 * (c :: w).length) []
    (by simpa using hlen)
  rw [show 2 * (c :: w).length + (n - 2 * (c :: w).length) = n by
    simp only [List.length_cons]; omega, List.cons_append,
    Lexer.lgetc_char (hp c List.mem_cons_self) hb] at heq
  obtain ⟨m, rfl⟩ :=
    Nat.exists_eq_add_of_le' (show 2 ≤ m by simp only [List.length_cons] at hm; omega)
  rw [heq, hend.stop]
  rfl

end Line

end Tmpl

end Galileo
