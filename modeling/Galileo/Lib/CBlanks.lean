import Galileo.Lib.Blanks
import Galileo.Lib.CToken
import Galileo.Lib.Lines

/-!
# Blanks in a C text

What blanks mean to the scanner depends on where they are. Outside of literals one is as good as
many and a tab as good as a space: the scanner is `Settled` after the first and another one changes
nothing. In a literal each of them is a character of the token. So when the runs of blanks in a text
are squeezed, the scanner goes through the same states as long as the blanks in literals are single
spaces (`Spaced`, `feeds_squeeze`), and that is all there is to it (`squeeze_differs`).

Blanks in front of a line, and lines of blanks, can be dropped for the same reason, unless the line
continues another one: then the blanks may be what keeps two tokens apart, and the empty line is
what ends the line it continues (`LineSpaced`).
-/

set_option autoImplicit false

namespace Lib

namespace CToken

namespace Scanner

variable {q : Scanner} {b c : UInt8} {s w : Bytes} {run : Bool}

/-! ## One blank -/

def inLiteral (q : Scanner) : Bool :=
  match q.mode with
  | .literal .. => true
  | _ => false

/-- A blank was the last thing read, outside of literals. -/
def Settled (q : Scanner) : Prop :=
  q.pending = false ∧ (q.mode = .code [] ∨ q.mode = .lineComment ∨ q.mode = .comment false)

@[simp] theorem feeds_nil (q : Scanner) : q.feeds [] = q := rfl

@[simp] theorem feeds_cons (q : Scanner) (c : UInt8) (s : Bytes) :
    q.feeds (c :: s) = (q.feed c).feeds s := rfl

theorem feeds_append (q : Scanner) (s t : Bytes) : q.feeds (s ++ t) = (q.feeds s).feeds t :=
  List.foldl_append

@[simp] theorem pending_put (q : Scanner) (ts : List Bytes) (m : Mode) :
    (q.put ts m).pending = q.pending := rfl

@[simp] theorem pending_endLine (q : Scanner) : q.endLine.pending = q.pending := rfl

@[simp] theorem mode_put (q : Scanner) (ts : List Bytes) (m : Mode) : (q.put ts m).mode = m := rfl

@[simp] theorem mode_endLine (q : Scanner) : q.endLine.mode = q.mode := rfl

theorem pending_step (q : Scanner) (c : UInt8) : (q.step c).pending = q.pending := by
  unfold step stepCode stepLiteral
  split <;> (repeat' split) <;> rfl

@[simp] theorem pending_flush (q : Scanner) : q.flush.pending = false := by
  unfold flush
  split
  · rw [pending_step]
  · rename_i h
    simpa using h

theorem flush_eq (h : q.pending = false) : q.flush = q := by simp [flush, h]

theorem blank_ne (h : isblank b = true) : b ≠ 10 ∧ b ≠ 92 ∧ b ≠ 47 ∧ b ≠ 42 ∧ isspace b = true := by
  simp only [isblank, Bool.or_eq_true, beq_iff_eq] at h
  rcases h with rfl | rfl <;> decide

theorem feed_blank (h : isblank b = true) (q : Scanner) : q.feed b = q.flush.step b := by
  obtain ⟨h10, h92, -⟩ := blank_ne h
  simp [feed, h10, h92]

/-- The backslash that was held back does not open a literal. -/
theorem inLiteral_flush (h : q.inLiteral = false) : q.flush.inLiteral = false := by
  obtain ⟨directives, lines, line, mode, pending⟩ := q
  cases pending with
  | false => exact h
  | true =>
    cases mode with
    | code t => simp [flush, step, stepCode, put, inLiteral, isspace]
    | literal close t esc => cases h
    | lineComment => rfl
    | comment star => simp [flush, step, put, inLiteral]

theorem settled_step_blank (hb : isblank b = true) (hq : q.pending = false)
    (h : q.inLiteral = false) : (q.step b).Settled := by
  obtain ⟨h10, -, h47, h42, hs⟩ := blank_ne hb
  refine ⟨(pending_step q b).trans hq, ?_⟩
  obtain ⟨directives, lines, line, mode, pending⟩ := q
  cases mode with
  | code t => simp [step, stepCode, h10, hs]
  | literal close t esc => cases h
  | lineComment => simp [step, h10]
  | comment star => simp [step, h47, h42]

theorem Settled.step_blank (h : q.Settled) (hb : isblank b = true) : q.step b = q := by
  obtain ⟨h10, -, h47, h42, hs⟩ := blank_ne hb
  obtain ⟨directives, lines, line, mode, pending⟩ := q
  obtain ⟨-, rfl | rfl | rfl⟩ := h
  · simp [step, stepCode, h10, hs, put, finish]
  · simp [step, h10]
  · simp [step, h42, put]

theorem Settled.feed_blank (h : q.Settled) (hb : isblank b = true) : q.feed b = q := by
  rw [Scanner.feed_blank hb, flush_eq h.1, h.step_blank hb]

theorem Settled.inLiteral (h : q.Settled) : q.inLiteral = false := by
  obtain ⟨-, h | h | h⟩ := h <;> simp [Scanner.inLiteral, h]

theorem Settled.feeds_blanks (h : q.Settled) (hs : ∀ b ∈ s, isblank b = true) : q.feeds s = q := by
  induction s with
  | nil => rfl
  | cons b s ih =>
    rw [feeds_cons, h.feed_blank (hs b List.mem_cons_self)]
    exact ih fun x hx => hs x (List.mem_cons_of_mem _ hx)

/-- A blank leaves the scanner in the literal it was in, or settled. -/
theorem feed_blank_cases (hb : isblank b = true) (q : Scanner) :
    (q.feed b).inLiteral = true ∨ (q.feed b).Settled := by
  rw [feed_blank hb]
  cases h : q.flush.inLiteral with
  | false => exact Or.inr (settled_step_blank hb (pending_flush q) h)
  | true =>
    have hp := pending_flush q
    generalize q.flush = q at h hp
    obtain ⟨h10, -⟩ := blank_ne hb
    obtain ⟨directives, lines, line, mode, pending⟩ := q
    cases mode with
    | literal close t esc =>
      simp only [step, stepLiteral, beq_iff_eq, h10, if_false]
      split
      · exact Or.inr ⟨hp, Or.inl rfl⟩
      · exact Or.inl rfl
    | code t => cases h
    | lineComment => cases h
    | comment star => cases h

/-- Outside of literals a tab is a space. -/
theorem feed_blank_eq (hb : isblank b = true) (h : q.flush.inLiteral = false) :
    q.feed b = q.feed 32 := by
  rw [feed_blank hb, feed_blank (b := 32) rfl]
  generalize q.flush = q at h
  have hb' : b = 32 ∨ b = 9 := by simpa [isblank] using hb
  rcases hb' with rfl | rfl
  · rfl
  · obtain ⟨directives, lines, line, mode, pending⟩ := q
    cases mode with
    | code t => simp [step, stepCode, isspace]
    | literal close t esc => cases h
    | lineComment => rfl
    | comment star => simp [step]

/-! ## Runs of blanks -/

/-- **Blanks in literals are single spaces.** `run` says that a blank was read last. -/
def Spaced : Scanner → Bool → Bytes → Prop
  | _, _, [] => True
  | q, run, b :: s =>
      (isblank b = true → q.flush.inLiteral = true → run = false ∧ b = 32) ∧
        Spaced (q.feed b) (isblank b) s

instance decidableSpaced : ∀ (q : Scanner) (run : Bool) (s : Bytes), Decidable (q.Spaced run s)
  | _, _, [] => inferInstanceAs (Decidable True)
  | q, run, b :: s =>
      have := decidableSpaced (q.feed b) (isblank b) s
      inferInstanceAs
        (Decidable ((isblank b = true → q.flush.inLiteral = true → run = false ∧ b = 32) ∧
        (q.feed b).Spaced (isblank b) s))

/-- What `run` says of the state. -/
def AfterBlank (q : Scanner) (run : Bool) : Prop :=
  run = true → q.pending = false ∧ (q.inLiteral = true ∨ q.Settled)

theorem afterBlank_feed (q : Scanner) (b : UInt8) : (q.feed b).AfterBlank (isblank b) := by
  intro hb
  refine ⟨?_, feed_blank_cases hb q⟩
  rw [feed_blank hb, pending_step, pending_flush]

/-- The next blank of a text that is `Spaced`: it is kept as a space, or it is dropped and was
nothing. -/
theorem feed_of_spaced (hq : q.AfterBlank run) (hb : isblank b = true)
    (h : q.flush.inLiteral = true → run = false ∧ b = 32) :
    (run = false ∧ q.feed b = q.feed 32) ∨ (run = true ∧ q.feed b = q) := by
  cases hrun : run with
  | false =>
    refine Or.inl ⟨rfl, ?_⟩
    cases hl : q.flush.inLiteral with
    | true => rw [(h hl).2]
    | false => exact feed_blank_eq hb hl
  | true =>
    obtain ⟨hp, hl | hs⟩ := hq hrun
    · rw [flush_eq hp] at h
      exact absurd (h hl).1 (by simp [hrun])
    · exact Or.inr ⟨rfl, hs.feed_blank hb⟩

theorem feeds_squeeze (hq : q.AfterBlank run) (h : q.Spaced run s) :
    q.feeds (squeeze run s) = q.feeds s := by
  induction s generalizing q run with
  | nil => rfl
  | cons b s ih =>
    obtain ⟨hhead, htail⟩ := h
    have hrest := ih (afterBlank_feed q b) htail
    cases hb : isblank b with
    | false => rw [squeeze_cons hb, feeds_cons, feeds_cons, ← hrest, hb]
    | true =>
      rw [hb] at hrest
      rcases feed_of_spaced hq hb (hhead hb) with ⟨rfl, heq⟩ | ⟨rfl, heq⟩
      · rw [squeeze_blank hb, feeds_cons, feeds_cons, ← heq, hrest]
      · rw [squeeze_run hb, feeds_cons, ← hrest, heq]

/-! ## Lines -/

/-- In front of a line that continues no other. -/
def Fresh (q : Scanner) : Prop :=
  q.pending = false ∧ ((q.mode = .code [] ∧ q.line = []) ∨ q.mode = .comment false)

/-- The blanks in front of a line do not keep its first character `c` apart from something, and the
blanks in it are as they should. -/
def BodySpaced (q : Scanner) (w : Bytes) (c : UInt8) (r : Bytes) : Prop :=
  (w ≠ c :: r → q.inLiteral = false ∧ (q.feed 32).feed c = q.feed c) ∧ (q.feed c).Spaced false r

/-- A line whose blanks can be squeezed and whose leading blanks can be dropped; if it has nothing
but blanks, a line that can be dropped. -/
def LineSpaced (q : Scanner) (w : Bytes) : Prop :=
  match w.dropWhile isblank with
  | [] => q.Fresh
  | c :: r => q.BodySpaced w c r

/-- The same for the last line, behind which the text ends without a newline. -/
def LastSpaced (q : Scanner) (w : Bytes) : Prop :=
  match w.dropWhile isblank with
  | [] => w = [] ∨ q.inLiteral = false
  | c :: r => q.BodySpaced w c r ∧ (q.feeds w).pending = false

def TextSpaced : Scanner → List Bytes → Bytes → Prop
  | q, [], r => q.LastSpaced r
  | q, w :: ls, r => q.LineSpaced w ∧ TextSpaced (q.feeds (w ++ [10])) ls r

instance (q : Scanner) : Decidable q.Fresh :=
  inferInstanceAs (Decidable (_ ∧ (_ ∧ _ ∨ _)))

instance (q : Scanner) (w : Bytes) (c : UInt8) (r : Bytes) : Decidable (q.BodySpaced w c r) :=
  inferInstanceAs (Decidable ((_ → _ ∧ _) ∧ _))

instance (q : Scanner) (w : Bytes) : Decidable (q.LineSpaced w) :=
  match h : w.dropWhile isblank with
  | [] => decidable_of_iff q.Fresh (by simp [LineSpaced, h])
  | c :: r => decidable_of_iff (q.BodySpaced w c r) (by simp [LineSpaced, h])

instance (q : Scanner) (w : Bytes) : Decidable (q.LastSpaced w) :=
  match h : w.dropWhile isblank with
  | [] => decidable_of_iff (w = [] ∨ q.inLiteral = false) (by simp [LastSpaced, h])
  | c :: r =>
      decidable_of_iff (q.BodySpaced w c r ∧ (q.feeds w).pending = false) (by simp [LastSpaced, h])

instance decidableTextSpaced : ∀ (q : Scanner) (ls : List Bytes) (r : Bytes),
    Decidable (q.TextSpaced ls r)
  | q, [], r => inferInstanceAs (Decidable (q.LastSpaced r))
  | q, w :: ls, r =>
      @instDecidableAnd (q.LineSpaced w) _ inferInstance
        (decidableTextSpaced (q.feeds (w ++ [10])) ls r)

/-- Lines with their blanks squeezed, and without the empty ones. -/
def squeezedLines (ls : List Bytes) : Bytes :=
  ((ls.map (squeeze true)).filter (!·.isEmpty)).flatMap (· ++ [10])

theorem squeezedLines_blank (h : w.dropWhile isblank = []) (ls : List Bytes) :
    squeezedLines (w :: ls) = squeezedLines ls := by
  have hw : squeeze true w = [] := by rw [squeeze_true, h]; rfl
  simp [squeezedLines, hw]

theorem not_isblank_of_dropWhile (h : w.dropWhile isblank = c :: s) : isblank c = false := by
  have hhead := List.head?_dropWhile_not isblank w
  rw [h] at hhead
  simpa using hhead

theorem squeeze_of_dropWhile (h : w.dropWhile isblank = c :: s) :
    squeeze true w = c :: squeeze false s := by
  rw [squeeze_true, h, squeeze_cons (not_isblank_of_dropWhile h)]

theorem squeezedLines_cons (h : w.dropWhile isblank = c :: s) (ls : List Bytes) :
    squeezedLines (w :: ls) = c :: squeeze false s ++ 10 :: squeezedLines ls := by
  simp [squeezedLines, squeeze_of_dropWhile h]

/-- Blanks at the beginning of a line. -/
theorem feeds_blanks (hl : q.inLiteral = false) (hb : isblank b = true)
    (hs : ∀ x ∈ s, isblank x = true) :
    q.feeds (b :: s) = q.feed 32 := by
  have hl' : q.flush.inLiteral = false := inLiteral_flush hl
  have hset : (q.feed b).Settled := by
    rw [feed_blank hb]
    exact settled_step_blank hb (pending_flush q) hl'
  rw [feeds_cons, hset.feeds_blanks hs, feed_blank_eq hb hl']

theorem forall_blank_of_dropWhile (h : w.dropWhile isblank = []) : ∀ b ∈ w, isblank b = true :=
  List.dropWhile_eq_nil_iff.mp h

theorem BodySpaced.feeds (h : q.BodySpaced w c s) (hw : w.dropWhile isblank = c :: s) :
    q.feeds (c :: squeeze false s) = q.feeds w := by
  have hbody : q.feeds (c :: squeeze false s) = q.feeds (c :: s) := by
    rw [feeds_cons, feeds_cons]
    exact feeds_squeeze (fun hrun => by cases hrun) h.2
  rw [hbody]
  have hsplit : w.takeWhile isblank ++ (c :: s) = w := hw ▸ List.takeWhile_append_dropWhile
  cases hfront : w.takeWhile isblank with
  | nil => rw [← hsplit, hfront, List.nil_append]
  | cons b bs =>
    have hblanks : ∀ x ∈ b :: bs, isblank x = true := fun x hx =>
      List.mem_takeWhile_imp (p := isblank) (l := w) (hfront ▸ hx)
    have hne : w ≠ c :: s := by
      intro heq
      rw [heq, List.takeWhile_cons_of_neg (by simp [not_isblank_of_dropWhile hw])] at hfront
      cases hfront
    obtain ⟨hl, hkeep⟩ := h.1 hne
    rw [← hsplit, hfront, feeds_append, feeds_blanks hl (hblanks b List.mem_cons_self)
      (fun x hx => hblanks x (List.mem_cons_of_mem _ hx)), feeds_cons, feeds_cons, hkeep]

theorem Fresh.settled (h : q.Fresh) : q.Settled := by
  obtain ⟨hp, ⟨hm, -⟩ | hm⟩ := h
  · exact ⟨hp, Or.inl hm⟩
  · exact ⟨hp, Or.inr (Or.inr hm)⟩

/-- A line of blanks is nothing where no line is continued. -/
theorem Fresh.feeds_blank_line (h : q.Fresh) (hw : w.dropWhile isblank = []) :
    q.feeds (w ++ [10]) = q := by
  rw [feeds_append, h.settled.feeds_blanks (forall_blank_of_dropWhile hw)]
  obtain ⟨directives, lines, line, mode, pending⟩ := q
  obtain ⟨hp, ⟨rfl, hl⟩ | rfl⟩ := h
  · cases hp
    cases hl
    simp [feed, flush, step, stepCode, endLine, put, finish]
  · cases hp
    simp [feed, flush, step, put]

/-- The end of the text ends its last line. -/
theorem close_feed_newline (h : q.pending = false) : (q.feed 10).close = q.close := by
  obtain ⟨directives, lines, line, mode, pending⟩ := q
  cases h
  cases mode with
  | code t => cases directives <;> simp [feed, close, flush, step, stepCode, endLine, put, finish]
  | literal cl t esc =>
    cases directives <;>
      simp [feed, close, flush, step, stepCode, stepLiteral, endLine, put, finish]
  | lineComment =>
    cases directives <;> simp [feed, close, flush, step, stepCode, endLine, put, finish]
  | comment star => simp [feed, close, flush, step, endLine, put]

theorem close_feed_blank (h : q.pending = false) (hl : q.inLiteral = false) :
    (q.feed 32).close = q.close := by
  obtain ⟨directives, lines, line, mode, pending⟩ := q
  cases h
  cases mode with
  | code t => simp [feed, close, flush, step, stepCode, endLine, put, finish, isspace]
  | literal cl t esc => cases hl
  | lineComment => simp [feed, close, flush, step]
  | comment star => simp [feed, close, flush, step, endLine, put]

theorem pending_feed_newline (q : Scanner) : (q.feed 10).pending = false := by
  cases h : q.pending with
  | true => simp [feed, h]
  | false => simp [feed, h, pending_step]

/-- **Squeezing the blanks of a text** keeps what the scanner makes of it. -/
theorem close_squeezedLines {ls : List Bytes} {r : Bytes} (hp : q.pending = false)
    (h : q.TextSpaced ls r) :
    (q.feeds (squeezedLines (ls ++ [r]))).close = (q.feeds (joinLines ls r)).close := by
  induction ls generalizing q with
  | nil =>
    have hjoin : joinLines [] r = r := rfl
    rw [hjoin, List.nil_append]
    unfold TextSpaced LastSpaced at h
    split at h
    · next hr =>
      rw [squeezedLines_blank hr]
      have hblanks := forall_blank_of_dropWhile hr
      cases r with
      | nil => rfl
      | cons b r =>
        rcases h with h | hl
        · cases h
        · rw [feeds_blanks hl (hblanks b List.mem_cons_self)
            (fun x hx => hblanks x (List.mem_cons_of_mem _ hx)), close_feed_blank hp hl]
          rfl
    · next c s hr =>
      obtain ⟨hbody, hpend⟩ := h
      have hfeeds := hbody.feeds hr
      rw [squeezedLines_cons hr, feeds_append, hfeeds]
      exact close_feed_newline hpend
  | cons w ls ih =>
    obtain ⟨hline, hrest⟩ := h
    have htail := ih (by rw [feeds_append]; exact pending_feed_newline _) hrest
    rw [List.cons_append, joinLines_cons, List.append_cons w 10, feeds_append q (w ++ [10])]
    unfold LineSpaced at hline
    split at hline
    · next hw =>
      rw [hline.feeds_blank_line hw] at htail ⊢
      rw [squeezedLines_blank hw, htail]
    · next c s hw =>
      rw [feeds_append q w] at htail ⊢
      rw [squeezedLines_cons hw, List.append_cons, feeds_append, feeds_append, hline.feeds hw,
        htail]

/-! ## Blanks in a literal -/

/-- The tokens up to here. -/
def tokens (q : Scanner) : List Bytes := q.lines.flatten ++ q.line

@[simp] theorem tokens_put (q : Scanner) (ts : List Bytes) (m : Mode) :
    (q.put ts m).tokens = q.tokens ++ ts := by
  simp [tokens, put]

@[simp] theorem tokens_endLine (q : Scanner) : q.endLine.tokens = q.tokens := by
  obtain ⟨directives, lines, line, mode, pending⟩ := q
  cases directives with
  | false => rfl
  | true =>
    cases line with
    | nil => rfl
    | cons t ts => simp [tokens, endLine]

@[simp] theorem directives_put (q : Scanner) (ts : List Bytes) (m : Mode) :
    (q.put ts m).directives = q.directives := rfl

@[simp] theorem directives_endLine (q : Scanner) : q.endLine.directives = q.directives := rfl

@[simp] theorem directives_step (q : Scanner) (c : UInt8) :
    (q.step c).directives = q.directives := by
  unfold step stepCode stepLiteral
  split <;> (repeat' split) <;> rfl

@[simp] theorem directives_flush (q : Scanner) : q.flush.directives = q.directives := by
  unfold flush
  split <;> simp

@[simp] theorem directives_feed (q : Scanner) (c : UInt8) :
    (q.feed c).directives = q.directives := by
  unfold feed
  split
  · rfl
  · split <;> simp

@[simp] theorem directives_feeds (q : Scanner) (s : Bytes) :
    (q.feeds s).directives = q.directives := by
  induction s generalizing q with
  | nil => rfl
  | cons c s ih => rw [feeds_cons, ih, directives_feed]

theorem tokens_close (hd : q.directives = true) : q.close.tokens = q.close.lines.flatten := by
  simp [tokens, close, endLine, hd]

theorem tokens_step (q : Scanner) (c : UInt8) : q.tokens <+: (q.step c).tokens := by
  unfold step stepCode stepLiteral
  split <;> (repeat' split) <;> simp

/-- The token behind `T` begins with `t`: it is the literal the scanner is in, or is complete. -/
def Begins (q : Scanner) (T : List Bytes) (t : Bytes) : Prop :=
  (∃ cl t' e, q.mode = .literal cl t' e ∧ q.tokens = T ∧ t <+: t') ∨
    ∃ x more, q.tokens = T ++ x :: more ∧ t <+: x

variable {T : List Bytes} {t : Bytes}

theorem Begins.of_prefix {q' : Scanner} {x : Bytes} {more : List Bytes}
    (hx : q.tokens = T ++ x :: more) (ht : t <+: x) (h : q.tokens <+: q'.tokens) :
    q'.Begins T t := by
  obtain ⟨ts, hts⟩ := h
  exact Or.inr ⟨x, more ++ ts, by rw [← hts, hx]; simp, ht⟩

theorem Begins.step (h : q.Begins T t) (c : UInt8) : (q.step c).Begins T t := by
  rcases h with ⟨cl, t', e, hm, htok, ht⟩ | ⟨x, more, hx, ht⟩
  · have hstep : q.step c = q.stepLiteral cl t' e c := by simp [Scanner.step, hm]
    rw [hstep, stepLiteral]
    split
    · exact Or.inr ⟨t', [], by simp [htok], ht⟩
    · split
      · exact Or.inr ⟨t' ++ [c], [], by simp [htok], ht.trans (List.prefix_append t' [c])⟩
      · exact Or.inl ⟨cl, t' ++ [c], _, rfl, by simp [htok], ht.trans (List.prefix_append t' [c])⟩
  · exact Begins.of_prefix hx ht (tokens_step q c)

theorem Begins.flush (h : q.Begins T t) : q.flush.Begins T t := by
  unfold Scanner.flush
  split
  · exact Begins.step (q := { q with pending := false }) h 92
  · exact h

theorem Begins.feed (h : q.Begins T t) (c : UInt8) : (q.feed c).Begins T t := by
  unfold Scanner.feed
  split
  · exact h
  · split
    · exact h.flush
    · exact h.flush.step c

theorem Begins.feeds (h : q.Begins T t) (s : Bytes) : (q.feeds s).Begins T t := by
  induction s generalizing q with
  | nil => exact h
  | cons c s ih => exact ih (h.feed c)

/-- In the end the token is there. -/
theorem Begins.close (h : q.Begins T t) : ∃ x more, q.close.tokens = T ++ x :: more ∧ t <+: x := by
  rw [Scanner.close, tokens_endLine]
  rcases h.flush with ⟨cl, t', e, hm, htok, ht⟩ | ⟨x, more, hx, ht⟩
  · exact ⟨t', [], by simp [Scanner.step, hm, stepLiteral, htok], ht⟩
  · obtain ⟨ts, hts⟩ := tokens_step q.flush 10
    exact ⟨x, more ++ ts, by rw [← hts, hx]; simp, ht⟩

theorem tokens_feed (q : Scanner) (c : UInt8) : q.tokens <+: (q.feed c).tokens := by
  have hflush : q.tokens <+: q.flush.tokens := by
    unfold flush
    split
    · exact tokens_step { q with pending := false } 92
    · exact List.prefix_rfl
  unfold feed
  split
  · exact List.prefix_rfl
  · split
    · exact hflush
    · exact hflush.trans (tokens_step q.flush c)

theorem tokens_feeds_close (q : Scanner) (s : Bytes) : q.tokens <+: (q.feeds s).close.tokens := by
  induction s generalizing q with
  | nil =>
    rw [feeds_nil, close, tokens_endLine]
    have hflush := tokens_feed q 10
    refine List.IsPrefix.trans ?_ (tokens_step q.flush 10)
    unfold flush
    split
    · exact tokens_step { q with pending := false } 92
    · exact List.prefix_rfl
  | cons c s ih => exact (tokens_feed q c).trans (ih (q.feed c))

theorem begins_step_literal {cl : UInt8} {e : Bool} (hm : q.mode = .literal cl t e)
    (ht : q.tokens = T) (hc : c ≠ 10) : (q.step c).Begins T (t ++ [c]) := by
  have hstep : q.step c = q.stepLiteral cl t e c := by simp [step, hm]
  rw [hstep, stepLiteral, if_neg (by simpa using hc)]
  split
  · exact Or.inr ⟨t ++ [c], [], by simp [ht], List.prefix_rfl⟩
  · exact Or.inl ⟨cl, t ++ [c], _, rfl, by simp [ht], List.prefix_rfl⟩

theorem not_prefix_of_ne {x : Bytes} (h : t ++ [c] <+: x) (hne : b ≠ c) : ¬ t ++ [b] <+: x := by
  intro h'
  have heq := List.prefix_of_prefix_length_le h' h (by simp)
  have hbc := heq.eq_of_length (by simp)
  simp only [List.append_cancel_left_eq, List.cons.injEq, and_true] at hbc
  exact hne hbc

/-- In a literal that goes on with something that is no blank, the token does not have a blank
there. -/
theorem no_blank_in_literal {cl : UInt8} {e : Bool} (hm : q.mode = .literal cl t e)
    (ht : q.tokens = T) (hp : q.pending = false) (hc : isblank c = false)
    (hs : ¬ [92, 10] <+: c :: s) :
    ∃ x more, (q.feeds (c :: s)).close.tokens = T ++ x :: more ∧
      ∀ b, isblank b = true → ¬ t ++ [b] <+: x := by
  have hflush : q.flush = q := flush_eq hp
  have hblank : ∀ {x : Bytes}, t ++ [c] <+: x → ∀ b, isblank b = true → ¬ t ++ [b] <+: x := by
    intro x hx b hb
    refine not_prefix_of_ne hx fun hbc => ?_
    rw [hbc, hc] at hb
    cases hb
  by_cases h10 : c = 10
  · -- the literal ends with its line
    subst h10
    have hfeed : (q.feed 10).tokens = T ++ [t] := by
      simp [feed, hp, hflush, step, hm, stepLiteral, ht]
    obtain ⟨more, hmore⟩ := tokens_feeds_close (q.feed 10) s
    refine ⟨t, more, by rw [feeds_cons, ← hmore, hfeed]; simp, fun b _ hb => ?_⟩
    have hlen := hb.length_le
    rw [List.length_append] at hlen
    exact Nat.not_succ_le_self _ hlen
  · by_cases h92 : c = 92
    · -- a backslash, which is held back for one character
      subst h92
      have hbegins : (q.step 92).Begins T (t ++ [92]) := begins_step_literal hm ht (by decide)
      have hfeed : q.feed 92 = { q with pending := true } := by simp [feed, hflush]
      have hback : Scanner.flush { q with pending := true } = q.step 92 := by
        obtain ⟨directives, lines, line, mode, pending⟩ := q
        cases hp
        rfl
      rw [feeds_cons, hfeed]
      cases s with
      | nil =>
        have hclose : (Scanner.close { q with pending := true }) = (q.step 92).close := by
          rw [close, close, hback, flush_eq (by rw [pending_step, hp])]
        obtain ⟨x, more, hx, hpre⟩ := hbegins.close
        exact ⟨x, more, by rw [feeds_nil, hclose, hx], hblank hpre⟩
      | cons d s =>
        have hd : d ≠ 10 := by
          intro hd
          exact hs ⟨s, by rw [hd]; rfl⟩
        have hnext : (Scanner.feed { q with pending := true } d).Begins T (t ++ [92]) := by
          unfold feed
          rw [if_neg (by simp [hd]), hback]
          split
          · exact hbegins
          · exact hbegins.step d
        obtain ⟨x, more, hx, hpre⟩ := (hnext.feeds s).close
        exact ⟨x, more, hx, hblank hpre⟩
    · have hfeed : q.feed c = q.step c := by simp [feed, h10, h92, hflush]
      have hbegins : (q.step c).Begins T (t ++ [c]) := begins_step_literal hm ht h10
      obtain ⟨x, more, hx, hpre⟩ := (hbegins.feeds s).close
      exact ⟨x, more, by rw [feeds_cons, hfeed, hx], hblank hpre⟩

theorem mode_of_inLiteral (h : q.inLiteral = true) : ∃ cl t e, q.mode = .literal cl t e := by
  obtain ⟨directives, lines, line, mode, pending⟩ := q
  cases mode with
  | literal cl t e => exact ⟨cl, t, e, rfl⟩
  | code t => cases h
  | lineComment => cases h
  | comment star => cases h

/-- **Blanks in a literal count**: a line with other blanks in a literal than single spaces does not
have the tokens it has when its blanks are squeezed. -/
theorem squeeze_differs {u v : Bytes} (hq : q.AfterBlank run) (h : ¬ q.Spaced run s)
    (h10 : 10 ∉ s) (hs : s.getLast? ≠ some 92) :
    (q.feeds (squeeze run s ++ 10 :: u)).close.tokens ≠ (q.feeds (s ++ v)).close.tokens := by
  induction s generalizing q run with
  | nil => exact absurd trivial h
  | cons b s ih =>
    have hs10 : 10 ∉ s := fun hm => h10 (List.mem_cons_of_mem _ hm)
    have hlast : s.getLast? ≠ some 92 := fun hl => hs (by rw [List.getLast?_cons, hl]; rfl)
    by_cases hhead : isblank b = true → q.flush.inLiteral = true → run = false ∧ b = 32
    · -- this character is as it should be, so both texts are in the same state behind it
      have htail : ¬ (q.feed b).Spaced (isblank b) s := fun ht => h ⟨hhead, ht⟩
      have hrest := ih (afterBlank_feed q b) htail hs10 hlast
      cases hb : isblank b with
      | false =>
        rw [hb] at hrest
        rwa [squeeze_cons hb, List.cons_append, List.cons_append, feeds_cons, feeds_cons]
      | true =>
        rw [hb] at hrest
        rcases feed_of_spaced hq hb (hhead hb) with ⟨rfl, heq⟩ | ⟨rfl, heq⟩
        · rwa [squeeze_blank hb, List.cons_append, List.cons_append, feeds_cons, feeds_cons, ← heq]
        · rw [heq] at hrest
          rwa [squeeze_run hb, List.cons_append, feeds_cons, heq]
    · simp only [Classical.not_imp] at hhead
      obtain ⟨hb, hlit, hbad⟩ := hhead
      obtain ⟨cl, t, e, hm⟩ := mode_of_inLiteral hlit
      have hb10 : b ≠ 10 := (blank_ne hb).1
      obtain ⟨x, more, hx, hpre⟩ :=
        ((begins_step_literal (c := b) hm rfl hb10).feeds (s ++ v)).close
      intro heq
      rw [List.cons_append, feeds_cons, feed_blank hb, hx] at heq
      cases run with
      | false =>
        -- a tab, which becomes a space
        have hne : b ≠ 32 := fun hb32 => hbad ⟨rfl, hb32⟩
        rw [squeeze_blank hb, List.cons_append, feeds_cons, feed_blank (b := 32) rfl] at heq
        obtain ⟨y, more', hy, hpre'⟩ :=
          ((begins_step_literal (c := 32) hm rfl (by decide)).feeds
            (squeeze true s ++ 10 :: u)).close
        rw [hy, List.append_cancel_left_eq, List.cons.injEq] at heq
        rw [heq.1] at hpre'
        exact not_prefix_of_ne hpre' hne hpre
      | true =>
        -- a blank that is dropped, so that something else is next
        obtain ⟨hp, -⟩ := hq rfl
        rw [flush_eq hp] at hm heq
        have hnext : ∃ c w, squeeze true s ++ 10 :: u = c :: w ∧ isblank c = false := by
          cases hd : s.dropWhile isblank with
          | nil => exact ⟨10, u, by rw [squeeze_true, hd]; rfl, rfl⟩
          | cons c w =>
            exact ⟨c, squeeze false w ++ 10 :: u, by rw [squeeze_of_dropWhile hd]; rfl,
              not_isblank_of_dropWhile hd⟩
        obtain ⟨c, w, hcw, hc⟩ := hnext
        have hsplice : ¬ [92, 10] <+: c :: w := by
          intro hpre92
          rw [← hcw] at hpre92
          obtain ⟨z, hz⟩ := hpre92
          match hsq : squeeze true s with
          | [] =>
            rw [hsq] at hz
            cases hz
          | [a] =>
            rw [hsq] at hz
            cases hz
            exact hlast (getLast?_squeeze (c := 92) rfl (by rw [hsq]; rfl))
          | a :: d :: w' =>
            rw [hsq] at hz
            cases hz
            rcases @mem_squeeze 10 true s (by rw [hsq]; simp) with h | h
            · cases h
            · exact hs10 h
        rw [squeeze_run hb, hcw] at heq
        obtain ⟨y, more', hy, hno⟩ := no_blank_in_literal hm rfl hp hc hsplice
        rw [hy, List.append_cancel_left_eq, List.cons.injEq] at heq
        rw [heq.1] at hno
        exact hno b hb hpre

/-! ## Texts without continued lines -/

theorem fresh_feed_newline (hd : q.directives = true) (h : q.pending = false) :
    (q.feed 10).Fresh := by
  refine ⟨pending_feed_newline q, ?_⟩
  obtain ⟨directives, lines, line, mode, pending⟩ := q
  cases h
  cases hd
  cases mode with
  | code t =>
    exact Or.inl
      ⟨by simp [feed, flush, step, stepCode], by simp [feed, flush, step, stepCode, endLine]⟩
  | literal cl t e =>
    exact Or.inl
      ⟨by simp [feed, flush, step, stepLiteral], by simp [feed, flush, step, stepLiteral, endLine]⟩
  | lineComment => exact Or.inl ⟨by simp [feed, flush, step], by simp [feed, flush, step, endLine]⟩
  | comment star => exact Or.inr (by simp [feed, flush, step])

theorem pending_feeds (hq : q.pending = false) (hs : s.getLast? ≠ some 92) :
    (q.feeds s).pending = false := by
  rcases List.eq_nil_or_concat s with rfl | ⟨s', c, rfl⟩
  · exact hq
  · have hc : c ≠ 92 := fun h => hs (by simp [h])
    rw [List.concat_eq_append, feeds_append, feeds_cons, feeds_nil, feed]
    split
    · rfl
    · rw [if_neg (by simpa using hc), pending_step, pending_flush]

theorem Fresh.feeds_body (h : q.Fresh) (hw : w.dropWhile isblank = c :: s) :
    q.feeds w = (q.feed c).feeds s := by
  have hsplit : w.takeWhile isblank ++ (c :: s) = w := hw ▸ List.takeWhile_append_dropWhile
  rw [← hsplit, feeds_append, h.settled.feeds_blanks fun x hx => List.mem_takeWhile_imp hx,
    feeds_cons]

theorem Fresh.bodySpaced (h : q.Fresh) (hs : (q.feed c).Spaced false s) : q.BodySpaced w c s :=
  ⟨fun _ => ⟨h.settled.inLiteral, by rw [h.settled.feed_blank (b := 32) rfl]⟩, hs⟩

theorem Fresh.spaced_of_tokens {u v : Bytes} (hq : q.Fresh) (hw : w.dropWhile isblank = c :: s)
    (hlast : w.getLast? ≠ some 92) (h10 : 10 ∉ w)
    (h : (q.feeds (c :: squeeze false s ++ 10 :: u)).close.tokens
      = (q.feeds (w ++ v)).close.tokens) :
    (q.feed c).Spaced false s := by
  by_contra hspaced
  have hsuf : c :: s <:+ w := hw ▸ List.dropWhile_suffix isblank
  have hs10 : 10 ∉ s := fun hm => h10 (hsuf.subset (List.mem_cons_of_mem _ hm))
  have hslast : s.getLast? ≠ some 92 := by
    intro hl
    obtain ⟨p, hp⟩ := hsuf
    apply hlast
    rw [← hp, List.getLast?_append, List.getLast?_cons, hl]
    rfl
  rw [List.cons_append, feeds_cons, feeds_append q w, hq.feeds_body hw, ← feeds_append] at h
  exact squeeze_differs (fun hrun => by cases hrun) hspaced hs10 hslast h

/-- **Where no line is continued, nothing else is needed**: when squeezing the blanks keeps the
tokens, the blanks in literals were single spaces. -/
theorem textSpaced_of_tokens {ls : List Bytes} {r : Bytes} (hd : q.directives = true) (hq : q.Fresh)
    (hls : ∀ w ∈ ls, w.getLast? ≠ some 92 ∧ 10 ∉ w) (hr : r.getLast? ≠ some 92) (hr10 : 10 ∉ r)
    (h : (q.feeds (squeezedLines (ls ++ [r]))).close.tokens
      = (q.feeds (joinLines ls r)).close.tokens) :
    q.TextSpaced ls r := by
  induction ls generalizing q with
  | nil =>
    unfold TextSpaced LastSpaced
    split
    · exact Or.inr hq.settled.inLiteral
    · next c s hw =>
      have hjoin : joinLines [] r = r ++ [] := by simp [joinLines]
      rw [List.nil_append, squeezedLines_cons hw, hjoin] at h
      exact ⟨hq.bodySpaced (hq.spaced_of_tokens hw hr hr10 h), pending_feeds hq.1 hr⟩
  | cons w ls ih =>
    obtain ⟨hw92, hw10⟩ := hls w List.mem_cons_self
    have hrest := ih (q := q.feeds (w ++ [10])) (by rw [directives_feeds, hd])
      (by
        rw [feeds_append]
        exact fresh_feed_newline (by rw [directives_feeds, hd]) (pending_feeds hq.1 hw92))
      (fun x hx => hls x (List.mem_cons_of_mem _ hx))
    rw [List.cons_append, joinLines_cons] at h
    unfold TextSpaced LineSpaced
    split
    · next hw =>
      refine ⟨hq, hrest ?_⟩
      rw [squeezedLines_blank hw, List.append_cons w 10, feeds_append q (w ++ [10])] at h
      rw [hq.feeds_blank_line hw] at h ⊢
      exact h
    · next c s hw =>
      rw [squeezedLines_cons hw] at h
      have hbody : q.BodySpaced w c s := hq.bodySpaced (hq.spaced_of_tokens hw hw92 hw10 h)
      refine ⟨hbody, hrest ?_⟩
      rw [feeds_append, hbody.feeds hw, List.append_cons w 10, feeds_append q (w ++ [10])] at h
      rw [← h, feeds_append]
      rfl

end Scanner

end CToken

end Lib
