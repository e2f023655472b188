import Galileo.Proof.Lexer

/-!
# The words of an expression

Between `{{` and `}}` the lexer cuts an expression into words, and the grammar puts them together
again: a blank behind each word that is not the last, nothing behind a bar. What comes out is a
function of the characters alone, and `rejoin` computes it character by character: `Place` is where
the lexer is, and `put` says what a character adds to the text. The quotes the lexer knows are the
double ones. A `}` is held back for one character (`brace`): in front of a blank or a bar it is
gone, in front of a double quote it makes the lexer count the quote twice.

`expression_text` is the connection: for every expression with closed quotes and no word that is a
keyword, `yylex` returns its words and then its end, and the text the grammar makes of them is what
`rejoin` says.
-/

set_option autoImplicit false

namespace Galileo

open Lib

namespace Tmpl

/-- Where the lexer is in an expression: between two words, with the blank that is due in front of
the next one; in a word, in quotes or not, behind a blank or not; behind a brace that is held
back. -/
inductive Place where
  | gap (due : Bool)
  | word (quote run : Bool)
  | brace
deriving DecidableEq

/-- The lexer is between two double quotes. -/
def Place.quoted : Place → Bool
  | .word quote _ => quote
  | _ => false

/-- A character of a word. -/
def putWord (quote run : Bool) (c : UInt8) : Bytes × Place :=
  if !quote && isspace c then ([], .gap true)
  else if c == 34 then ([34], .word (!quote) false)
  else if !quote && c == 124 then ([32, 124], .gap false)
  else if !quote && c == 125 then ([], .brace)
  else if isblank c then (if run then [] else [32], .word quote true)
  else ([c], .word quote false)

/-- The blank that is due. -/
def dueBlank (due : Bool) : Bytes := if due then [32] else []

def put : Place → UInt8 → Bytes × Place
  | .gap due, c =>
    if isGap c then ([], .gap due)
    else if c == 124 then (dueBlank due ++ [124], .gap false)
    else (dueBlank due ++ (putWord false false c).1, (putWord false false c).2)
  | .word quote run, c => putWord quote run c
  | .brace, c =>
    if isspace c then ([], .gap true)
    else if c == 34 then ([125, 34], .word false false)
    else if c == 124 then ([32, 124], .gap false)
    else ([125, c], .word false false)

/-- The text that is made of an expression, unless its quotes are still open at its end. -/
def rejoin : Place → Bytes → Option Bytes
  | p, [] => if p.quoted then none else some []
  | p, c :: e => (rejoin (put p c).2 e).map ((put p c).1 ++ ·)

theorem rejoin_cons (p : Place) (c : UInt8) (e : Bytes) :
    rejoin p (c :: e) = (rejoin (put p c).2 e).map ((put p c).1 ++ ·) := rfl

/-- A character that adds nothing. -/
theorem rejoin_silent {p p' : Place} {c : UInt8} (h : put p c = ([], p')) (e : Bytes) :
    rejoin p (c :: e) = rejoin p' e := by
  rw [rejoin_cons, h]
  cases rejoin p' e <;> rfl

theorem rejoin_adds {p p' : Place} {c : UInt8} {o : Bytes} (h : put p c = (o, p')) (e : Bytes) :
    rejoin p (c :: e) = (rejoin p' e).map (o ++ ·) := by
  rw [rejoin_cons, h]

/-- The value of `string` and `stringy`, for a list of tokens. -/
def joined : List Token → Bytes
  | [] => []
  | .STRING s :: ts => s ++ if ts = [] then [] else 32 :: joined ts
  | .BAR :: ts => 124 :: joined ts
  | _ :: ts => joined ts

theorem Stringy.value_eq_joined (y : Stringy) : y.value = joined y.tokens ∧ y.tokens ≠ [] := by
  induction y with
  | last s => simp [Stringy.value, Stringy.tokens, joined]
  | cons s rest ih =>
    obtain ⟨hv, hne⟩ := ih
    simp [Stringy.value, Stringy.tokens, joined, hv, hne]
  | bar rest ih =>
    obtain ⟨hv, hne⟩ := ih
    simp [Stringy.value, Stringy.tokens, joined, hv]

theorem Strings.string_eq_joined (x : Strings) : x.string = joined x.tokens := by
  obtain ⟨first, more⟩ := x
  induction more generalizing first with
  | nil => simp [Strings.string, Strings.tokens, joined]
  | cons s more ih =>
    have hrest := ih s
    simp only [Strings.string, Strings.tokens, List.map_cons] at hrest ⊢
    rw [joined, if_neg (by simp), ← hrest]
    simp

/-! ## Gaps and runs -/

section Rejoin

variable {e u : Bytes} {c : UInt8} {due : Bool}

theorem rejoin_gap (h : isGap c = true) : rejoin (.gap due) (c :: e) = rejoin (.gap due) e :=
  rejoin_silent (by simp [put, h]) e

theorem rejoin_gap_dropWhile (due : Bool) (e : Bytes) :
    rejoin (.gap due) (e.dropWhile isGap) = rejoin (.gap due) e := by
  induction e with
  | nil => rfl
  | cons c e ih =>
    cases h : isGap c with
    | true => rw [List.dropWhile_cons_of_pos h, ih, rejoin_gap h]
    | false => rw [List.dropWhile_cons_of_neg (by simp [h])]

theorem rejoin_gap_blanks (due : Bool) (e : Bytes) :
    rejoin (.gap due) (e.dropWhile isblank) = rejoin (.gap due) e := by
  rw [← rejoin_gap_dropWhile due (e.dropWhile isblank),
    dropWhile_dropWhile_of_imp (fun b hb => by simp [isGap, hb]), rejoin_gap_dropWhile]

/-- In quotes, what is left of a run of blanks is nothing. -/
theorem rejoin_run (e : Bytes) :
    rejoin (.word true true) e = rejoin (.word true false) (e.dropWhile isblank) := by
  induction e with
  | nil => rfl
  | cons c e ih =>
    cases h : isblank c with
    | true =>
      have h34 : c ≠ 34 := by
        intro h34
        subst h34
        cases h
      rw [List.dropWhile_cons_of_pos h, ← ih]
      exact rejoin_silent (by simp [put, putWord, h, h34]) e
    | false =>
      rw [List.dropWhile_cons_of_neg (by simp [h])]
      simp [rejoin_cons, put, putWord, h]

end Rejoin

/-! ## One word -/

section Word

variable {l : Lexer} {rest u v e buf : Bytes} {c : UInt8} {p p' : Place} {r : Ended} {n : Nat}

/-- The end of the expression, and what is behind it. -/
def tail (rest : Bytes) : Bytes := 125 :: 125 :: rest

/-- What is held back. -/
def Place.held : Place → Nat
  | .brace => 1
  | _ => 0

/-- **How the loop over a word can end**, when `u` is left of the expression and `buf` was read of
the word: with a blank, with a bar or with the end of the expression. If the quotes are still open
at the end of the expression, all can happen; a word can be too long for the buffer, and there may
be too little fuel. -/
inductive Outcome (l : Lexer) (rest : Bytes) (p : Place) (u buf : Bytes) (n : Nat) :
    Ended → Prop where
  | blank (out v : Bytes) (hv : v <:+ u) (hlt : v.length < u.length)
      (h : rejoin p u = (rejoin (.gap true) v).map (out ++ ·)) :
      Outcome l rest p u buf n (.text (buf ++ out) (l.reading (v ++ tail rest)))
  | bar (out v : Bytes) (hv : v <:+ u) (hlt : v.length < u.length)
      (h : rejoin p u = (rejoin (.gap false) v).map (out ++ 32 :: 124 :: ·)) :
      Outcome l rest p u buf n
        (.text (buf ++ out) ((l.reading (v ++ tail rest)).lungetc (some 124)))
  | close (out : Bytes) (h : rejoin p u = some out) :
      Outcome l rest p u buf n
        (.text (buf ++ out) (((l.reading rest).lungetc (some 125)).lungetc (some 125)))
  | unclosed (h : rejoin p u = none) (r : Ended) : Outcome l rest p u buf n r
  | tooLong (h : bufSize ≤ buf.length + p.held + u.length + 1) (l' : Lexer) :
      Outcome l rest p u buf n (.tooLong l')
  | noFuel (h : n < 2 * u.length + 4) (quote : Bool) (l' : Lexer) :
      Outcome l rest p u buf n (.eof quote l')

/-- Characters are read: `o` is what they add to the word. -/
theorem Outcome.step {o : Bytes} {m : Nat} (hv : v <:+ u)
    (h : rejoin p (c :: u) = (rejoin p' v).map (o ++ ·)) (hlen : o.length + p'.held ≤ p.held + 1)
    (hfuel : n ≤ m + 2) (ho : Outcome l rest p' v (buf ++ o) m r) :
    Outcome l rest p (c :: u) buf n r := by
  have hle := hv.length_le
  have hcons : (c :: u).length = u.length + 1 := List.length_cons
  cases ho with
  | blank out' w hw hlt h' =>
    rw [List.append_assoc]
    refine .blank (o ++ out') w (hw.trans (hv.trans (List.suffix_cons c u))) (by omega) ?_
    rw [h, h', Option.map_map]
    simp [Function.comp_def]
  | bar out' w hw hlt h' =>
    rw [List.append_assoc]
    refine .bar (o ++ out') w (hw.trans (hv.trans (List.suffix_cons c u))) (by omega) ?_
    rw [h, h', Option.map_map]
    simp [Function.comp_def]
  | close out' h' =>
    rw [List.append_assoc]
    exact .close (o ++ out') (by rw [h, h']; rfl)
  | unclosed h' r => exact .unclosed (by rw [h, h']; rfl) r
  | tooLong h' l' =>
    rw [List.length_append] at h'
    exact .tooLong (by omega) l'
  | noFuel h' quote l' => exact .noFuel (by omega) quote l'

/-- The word ends here. -/
theorem Outcome.blank_here (hv : v <:+ u) (h : rejoin p (c :: u) = rejoin (.gap true) v) :
    Outcome l rest p (c :: u) buf n (.text buf (l.reading (v ++ tail rest))) := by
  have ho : Outcome l rest p (c :: u) buf n (.text (buf ++ []) (l.reading (v ++ tail rest))) :=
    .blank [] v (hv.trans (List.suffix_cons c u)) (Nat.lt_succ_of_le hv.length_le)
      (by rw [h]; exact (Option.map_id' ..).symm)
  rwa [List.append_nil] at ho

theorem Outcome.bar_here (h : put p 124 = ([32, 124], .gap false)) :
    Outcome l rest p (124 :: v) buf n
      (.text buf ((l.reading (v ++ tail rest)).lungetc (some 124))) := by
  have ho : Outcome l rest p (124 :: v) buf n
      (.text (buf ++ []) ((l.reading (v ++ tail rest)).lungetc (some 124))) :=
    .bar [] v (List.suffix_cons 124 v) (Nat.lt_succ_self _) (rejoin_adds h v)
  rwa [List.append_nil] at ho

/-- There is no end mark in front of the end of the expression. -/
def Open (u : Bytes) : Prop := ¬ [125, 125] <:+: u ++ [125]

theorem Open.of_suffix (h : Open u) (hv : v <:+ u) : Open v := by
  obtain ⟨w, rfl⟩ := hv
  intro hi
  rw [Open, List.append_assoc] at h
  exact h (hi.trans ⟨w, [], by simp⟩)

theorem Open.of_not_mem (h : 125 ∉ u) : Open u := by
  intro hin
  have hcount := hin.sublist.count_le 125
  rw [List.count_append, List.count_eq_zero.mpr h] at hcount
  exact absurd hcount (by decide)

theorem Open.next (h : Open (125 :: u)) : ∃ a v, u = a :: v ∧ a ≠ 125 := by
  cases u with
  | nil => exact absurd ⟨[], [], rfl⟩ h
  | cons a v =>
    refine ⟨a, v, rfl, fun ha => h ?_⟩
    subst ha
    exact ⟨[], v ++ [125], by simp⟩

/-- What the loop does with a character that is kept. -/
theorem wordLoop_keep {quote : Bool} (hspace : (!quote && isspace c) = false) (hc : c ≠ 34)
    (hbar : (!quote && c == 124) = false) (hbrace : (!quote && c == 125) = false) :
    wordLoop 125 (n + 1) quote false (some c) buf l
      = if bufSize ≤ buf.length + 1 then .tooLong l
        else wordLoop 125 n quote false l.lgetc.1 (buf ++ [c]) l.lgetc.2 := by
  rw [wordLoop]
  simp [hspace, hc, hbar, hbrace]

theorem wordLoop_quote {quote : Bool} :
    wordLoop 125 (n + 1) quote false (some 34) buf l
      = if bufSize ≤ buf.length + 1 then .tooLong l
        else wordLoop 125 n (!quote) false l.lgetc.1 (buf ++ [34]) l.lgetc.2 := by
  rw [wordLoop]
  cases quote <;> simp [isspace]

/-- A brace is held back. -/
theorem wordLoop_held :
    wordLoop 125 (n + 1) false false (some 125) buf l
      = wordLoop 125 n false true l.lgetc.1 buf l.lgetc.2 := by
  rw [wordLoop]
  simp [isspace]

/-- A brace that was held back is put into the word with the next character still to come. -/
theorem wordLoop_brace (hspace : isspace c = false) (hbar : c ≠ 124) (hbrace : c ≠ 125) :
    wordLoop 125 (n + 1) false true (some c) buf l
      = if bufSize ≤ buf.length + 1 then .tooLong (l.lungetc (some c))
        else
          wordLoop 125 n (c == 34) false (l.lungetc (some c)).lgetc.1 (buf ++ [125])
            (l.lungetc (some c)).lgetc.2 := by
  rw [wordLoop]
  simp only [hspace, beq_eq_false_iff_ne.mpr hbar, beq_eq_false_iff_ne.mpr hbrace]
  by_cases h34 : c = 34
  · simp [h34]
  · simp [beq_eq_false_iff_ne.mpr h34]

theorem isblank_isspace (h : isblank c = true) : isspace c = true := by
  have hc : c = 32 ∨ c = 9 := by simpa [isblank] using h
  rcases hc with rfl | rfl <;> rfl

theorem dropWhile_tail (u rest : Bytes) :
    (u ++ tail rest).dropWhile isblank = u.dropWhile isblank ++ tail rest :=
  dropWhile_append_of_head (c := 125) rfl (by decide) u

/-- The loop in a word, in front of `u`. -/
def wordAt (l : Lexer) (rest : Bytes) (n : Nat) (quote : Bool) (u buf : Bytes) : Ended :=
  wordLoop 125 n quote false (l.reading (u ++ tail rest)).lgetc.1 buf
    (l.reading (u ++ tail rest)).lgetc.2

/-- The loop behind a brace that is held back. -/
def braceAt (l : Lexer) (rest : Bytes) (n : Nat) (u buf : Bytes) : Ended :=
  wordLoop 125 n false true (l.reading (u ++ tail rest)).lgetc.1 buf
    (l.reading (u ++ tail rest)).lgetc.2

/-- Outside quotes a blank ends the word, and so does a bar. -/
theorem stop_outcome {held : Bool} (hc : isExpand c = false) (hstop : isspace c = true ∨ c = 124)
    (hput : put p c = if isspace c then ([], .gap true) else ([32, 124], .gap false)) :
    Outcome l rest p (c :: u) buf (n + 1)
      (wordLoop 125 (n + 1) false held (l.reading (c :: u ++ tail rest)).lgetc.1 buf
        (l.reading (c :: u ++ tail rest)).lgetc.2) := by
  rw [List.cons_append]
  rcases hstop with hs | rfl
  · rw [hs, if_pos rfl] at hput
    cases hb : isblank c with
    | true =>
      rw [Lexer.lgetc_blank hb, dropWhile_tail, wordLoop]
      simp only [Bool.not_false, Bool.true_and, isspace, beq_self_eq_true, Bool.true_or, if_true]
      refine .blank_here (List.dropWhile_suffix isblank) ?_
      rw [rejoin_gap_blanks]
      exact rejoin_silent hput u
    | false =>
      rw [Lexer.lgetc_char hc hb, wordLoop]
      simp only [Bool.not_false, Bool.true_and, hs, if_true]
      exact .blank_here List.suffix_rfl (rejoin_silent hput u)
  · rw [Lexer.lgetc_char hc rfl, wordLoop]
    exact .bar_here hput

/-- In a word, in front of `c`, when the rest of the expression has been dealt with. -/
theorem word_outcome (hc : isExpand c = false)
    (ih : ∀ w : Bytes, w <:+ u → ∀ n quote buf,
      Outcome l rest (.word quote false) w buf n (wordAt l rest n quote w buf))
    (ihbrace : c = 125 → ∀ n buf, Outcome l rest .brace u buf n (braceAt l rest n u buf)) (n : Nat)
    (quote : Bool) (buf : Bytes) :
    Outcome l rest (.word quote false) (c :: u) buf n (wordAt l rest n quote (c :: u) buf) := by
  have hlong : bufSize ≤ buf.length + 1 →
      bufSize ≤ buf.length + (Place.word quote false).held + (c :: u).length + 1 := by
    intro h
    rw [List.length_cons]
    omega
  rw [wordAt]
  cases n with
  | zero => exact .noFuel (by omega) quote _
  | succ n =>
    by_cases hstop : quote = false ∧ (isspace c = true ∨ c = 124)
    · obtain ⟨rfl, hstop⟩ := hstop
      refine stop_outcome hc hstop ?_
      rcases hstop with hs | rfl
      · simp [put, putWord, hs]
      · rfl
    have hquoted : isspace c = true ∨ c = 124 → quote = true := fun h =>
      eq_true_of_ne_false fun hq => hstop ⟨hq, h⟩
    rw [List.cons_append]
    cases hb : isblank c with
    | true =>
      obtain rfl := hquoted (.inl (isblank_isspace hb))
      have hdrop : u.dropWhile isblank <:+ u := List.dropWhile_suffix isblank
      have h34 : c ≠ 34 := by
        intro h
        subst h
        cases hb
      rw [Lexer.lgetc_blank hb, dropWhile_tail, wordLoop_keep rfl (by decide) rfl rfl]
      split
      · next hfull => exact .tooLong (hlong hfull) _
      · refine Outcome.step (o := [32]) (m := n) hdrop ?_ (by decide) (by omega)
          (ih _ hdrop n true (buf ++ [32]))
        rw [← rejoin_run]
        exact rejoin_adds (by simp [put, putWord, hb, h34]) u
    | false =>
      rw [Lexer.lgetc_char hc hb]
      -- a character that is put into the word
      have hkept : ∀ {quote' : Bool}, put (.word quote false) c = ([c], .word quote' false) →
          wordLoop 125 (n + 1) quote false (some c) buf (l.reading (u ++ tail rest))
            = (if bufSize ≤ buf.length + 1 then .tooLong (l.reading (u ++ tail rest))
              else wordAt l rest n quote' u (buf ++ [c])) →
          Outcome l rest (.word quote false) (c :: u) buf (n + 1)
            (wordLoop 125 (n + 1) quote false (some c) buf (l.reading (u ++ tail rest))) := by
        intro quote' hput hloop
        rw [hloop]
        split
        · next hfull => exact .tooLong (hlong hfull) _
        · exact Outcome.step (o := [c]) (m := n) List.suffix_rfl (rejoin_adds hput u)
            (Nat.le_add_left _ _) (by omega) (ih u List.suffix_rfl n quote' (buf ++ [c]))
      have hs : (!quote && isspace c) = false := by
        cases h : isspace c with
        | false => exact Bool.and_false _
        | true => rw [hquoted (.inl h)]; rfl
      have hbar : (!quote && c == 124) = false := by
        cases h : c == 124 with
        | false => exact Bool.and_false _
        | true => rw [hquoted (.inr (eq_of_beq h))]; rfl
      by_cases h34 : c = 34
      · subst h34
        exact hkept (by simp [put, putWord, hs]) wordLoop_quote
      cases hbrace : (!quote && c == 125) with
      | true =>
        obtain ⟨rfl, rfl⟩ : quote = false ∧ c = 125 := by simpa using hbrace
        have hput : put (.word false false) 125 = ([], .brace) := rfl
        rw [wordLoop_held]
        exact Outcome.step (o := []) (m := n) List.suffix_rfl (rejoin_adds hput u) (by decide)
          (by omega) (by rw [List.append_nil]; exact ihbrace rfl n buf)
      | false =>
        exact hkept (by simp [put, putWord, hs, h34, hbar, hbrace, hb])
          (wordLoop_keep hs h34 hbar hbrace)

/-- Behind a brace that is held back, in front of `c`. -/
theorem brace_outcome (hc : isExpand c = false) (h125 : c ≠ 125)
    (ih : ∀ n quote buf, Outcome l rest (.word quote false) u buf n (wordAt l rest n quote u buf))
    (n : Nat) (buf : Bytes) :
    Outcome l rest .brace (c :: u) buf n (braceAt l rest n (c :: u) buf) := by
  rw [braceAt]
  cases n with
  | zero => exact .noFuel (by omega) false _
  | succ n =>
    by_cases hstop : isspace c = true ∨ c = 124
    · refine stop_outcome hc hstop ?_
      rcases hstop with hs | rfl
      · simp [put, hs]
      · rfl
    obtain ⟨hns, hbar⟩ := not_or.mp hstop
    have hs : isspace c = false := eq_false_of_ne_true hns
    have hb : isblank c = false := eq_false_of_ne_true fun h => hns (isblank_isspace h)
    -- the brace is put into the word, and the next character is read again
    have hagain : ((l.reading (u ++ tail rest)).lungetc (some c)).lgetc
        = (some c, l.reading (u ++ tail rest)) := Lexer.lgetc_pushed hc hb []
    rw [List.cons_append, Lexer.lgetc_char hc hb, wordLoop_brace hs hbar h125]
    split
    · next hfull => exact .tooLong (by rw [List.length_cons]; omega) _
    rw [hagain]
    cases n with
    | zero => exact .noFuel (by rw [List.length_cons]; omega) _ _
    | succ n =>
      have hloop : put .brace c = ([125, c], .word false false) ∧
          wordLoop 125 (n + 1) (c == 34) false (some c) (buf ++ [125]) (l.reading (u ++ tail rest))
            = (if bufSize ≤ (buf ++ [125]).length + 1 then .tooLong (l.reading (u ++ tail rest))
              else wordAt l rest n false u (buf ++ [125] ++ [c])) := by
        by_cases h34 : c = 34
        · subst h34
          exact ⟨rfl, wordLoop_quote⟩
        · rw [beq_false_of_ne h34]
          exact ⟨by simp [put, hs, hbar, h34],
            wordLoop_keep (by simp [hs]) h34 (by simp [hbar]) (by simp [h125])⟩
      rw [hloop.2, List.append_assoc]
      split
      · next hfull =>
        rw [List.length_append] at hfull
        exact .tooLong
          (by simp only [List.length_cons, List.length_nil, Place.held] at hfull ⊢; omega) _
      · exact Outcome.step (o := [125, c]) (m := n) List.suffix_rfl (rejoin_adds hloop.1 u)
          (Nat.le_refl _) (by omega) (ih n false (buf ++ [125, c]))

/-- In a word, at the end of the expression. -/
theorem end_outcome (n : Nat) (quote : Bool) (buf : Bytes) :
    Outcome l rest (.word quote false) [] buf n (wordAt l rest n quote [] buf) := by
  cases quote with
  | true => exact .unclosed rfl _
  | false =>
    rw [wordAt, List.nil_append, tail, Lexer.lgetc_char (by decide) (by decide)]
    match n with
    | 0 => exact .noFuel (by simp) _ _
    | 1 =>
      rw [wordLoop]
      simp only [isspace, Bool.not_false, Bool.true_and]
      exact .noFuel (by simp) _ _
    | n + 2 =>
      have hword : wordLoop 125 (n + 2) false false (some 125) buf (l.reading (125 :: rest))
          = .text buf (((l.reading rest).lungetc (some 125)).lungetc (some 125)) := by
        rw [wordLoop]
        simp only [isspace, Bool.not_false, Bool.true_and]
        rw [Lexer.lgetc_char (by decide) (by decide), wordLoop]
        simp [isspace]
      have ho : Outcome l rest (.word false false) [] buf (n + 2)
          (.text (buf ++ []) (((l.reading rest).lungetc (some 125)).lungetc (some 125))) :=
            .close [] rfl
      rw [hword]
      rwa [List.append_nil] at ho

/-- **Every word.** The induction is on what is left of the expression; a brace needs the rest
behind the character that follows it. -/
theorem outcome (hopen : Open u) (hplain : Plain u) :
    (∀ n quote buf, Outcome l rest (.word quote false) u buf n (wordAt l rest n quote u buf)) ∧
      ∀ c v, u = c :: v → c ≠ 125 → ∀ n buf,
        Outcome l rest .brace u buf n (braceAt l rest n u buf) := by
  induction hlen : u.length using Nat.strongRecOn generalizing u with
  | ind k ih =>
    cases u with
    | nil => exact ⟨fun n quote buf => end_outcome n quote buf, fun c v h => by cases h⟩
    | cons c u =>
      subst hlen
      have hc := hplain c List.mem_cons_self
      have hshorter : ∀ w : Bytes, w <:+ u → ∀ n quote buf,
          Outcome l rest (.word quote false) w buf n (wordAt l rest n quote w buf) := by
        intro w hw
        have hsuf := hw.trans (List.suffix_cons c u)
        exact (ih w.length (Nat.lt_succ_of_le hw.length_le) (hopen.of_suffix hsuf)
          (fun b hb => hplain b (hsuf.subset hb)) rfl).1
      refine ⟨word_outcome hc hshorter fun h125 => ?_, fun a v hav ha => ?_⟩
      · subst h125
        obtain ⟨a, v, rfl, ha⟩ := hopen.next
        exact (ih (a :: v).length (Nat.lt_succ_self _) (hopen.of_suffix (List.suffix_cons _ _))
          (fun b hb => hplain b (List.mem_cons_of_mem _ hb)) rfl).2 a v rfl ha
      · cases hav
        exact brace_outcome hc ha fun n quote buf => hshorter u List.suffix_rfl n quote buf

end Word

/-! ## The whole expression -/

section Expression

variable {l : Lexer} {rest e v text : Bytes} {c : UInt8} {due : Bool} {t : Lexeme}

theorem dropWhile_gap_tail (e rest : Bytes) :
    (e ++ tail rest).dropWhile isGap = e.dropWhile isGap ++ tail rest :=
  dropWhile_append_of_head (c := 125) rfl (by decide) e

/-- In an expression, the next token begins behind the gap. -/
theorem yylex_expression (hblock : l.block = 125) (s : Bytes) :
    (l.reading s).yylex = Lexer.scan (Lexer.newblock (l.reading s).room) (l.reading s) := by
  rw [Lexer.yylex]
  simp [hblock]

/-- There is nothing but a gap: the expression ends. -/
theorem yylex_close (hblock : l.block = 125) (he : e.dropWhile isGap = []) :
    (l.reading (e ++ tail rest)).yylex = (.token .CLOSE, { l.reading rest with block := 0 }) := by
  rw [yylex_expression hblock, Lexer.scan_close (t := rest)]
  · simp [hblock]
  · rw [dropWhile_gap_tail, he, hblock]
    rfl
  · simp [hblock]
  · simp [hblock, isExpand]

theorem yylex_bar (hblock : l.block = 125) (he : e.dropWhile isGap = 124 :: v) :
    (l.reading (e ++ tail rest)).yylex = (.token .BAR, l.reading (v ++ tail rest)) := by
  rw [yylex_expression hblock, Lexer.scan_reading (c := 124) (t := v ++ tail rest)]
  · simp [Lexer.content, Lexer.word, hblock]
  · rw [dropWhile_gap_tail, he]
    rfl
  · decide
  · simp [hblock]

/-- A word. If it begins with a brace, the character behind is read, pushed back and read again. -/
theorem yylex_word (hblock : l.block = 125) (hopen : Open e) (hplain : Plain e)
    (he : e.dropWhile isGap = c :: v) (hbar : c ≠ 124) :
    ∃ n, 2 * (c :: v).length + 4 ≤ n ∧
      (l.reading (e ++ tail rest)).yylex = (wordAt l rest n false (c :: v) []).lexeme lookup
        "string too long" "unterminated block" "unterminated quote" := by
  have hsuf : c :: v <:+ e := he ▸ List.dropWhile_suffix isGap
  have hc : isExpand c = false := hplain c (hsuf.subset List.mem_cons_self)
  have hgap : isGap c = false := by
    have hhead := List.head?_dropWhile_not isGap e
    rw [he] at hhead
    simpa using hhead
  have hblank : isblank c = false := by
    simp only [isGap, Bool.or_eq_false_iff] at hgap
    exact hgap.1
  have htail : (tail rest).length = rest.length + 2 := rfl
  have hroom := Lexer.lt_room l (v ++ tail rest)
  rw [List.length_append, htail] at hroom
  have hdrop : (e ++ tail rest).dropWhile isGap = c :: (v ++ tail rest) := by
    rw [dropWhile_gap_tail, he]
    rfl
  refine ⟨(l.reading (v ++ tail rest)).room, by rw [List.length_cons]; omega, ?_⟩
  rw [yylex_expression hblock]
  by_cases h125 : c = 125
  · subst h125
    obtain ⟨a, u, rfl, ha⟩ := (hopen.of_suffix hsuf).next
    have hplain_a : isExpand a = false :=
      hplain a (hsuf.subset (List.mem_cons_of_mem _ List.mem_cons_self))
    obtain ⟨a', t, hget, hor, hagain⟩ :=
      Lexer.lgetc_reading (l := l) (s := a :: u ++ tail rest) rfl hplain_a
    have ha' : a' ≠ 125 := by
      rcases hor with rfl | rfl
      · exact ha
      · decide
    rw [Lexer.scan_block (l := l) (by rw [hblock]; exact hdrop) (by simp [hblock])
      (by simp [hblock, isExpand]) hget ha', hblock]
    -- both loops go on from the character behind the brace
    obtain ⟨n, hn⟩ : ∃ n, (l.reading (a :: u ++ tail rest)).room = n + 1 :=
      ⟨(l.reading (a :: u ++ tail rest)).room - 1, by omega⟩
    have hboth : wordLoop 125 (n + 1) false false (some 125) [] ((l.reading t).lungetc (some a'))
        = wordAt l rest (n + 1) false (125 :: a :: u) [] := by
      rw [wordAt, List.cons_append, Lexer.lgetc_char (by decide) (by decide), wordLoop_held,
        wordLoop_held, hagain, hget]
    rw [hn, ← hboth]
    simp [Lexer.content, Lexer.word, hblock]
  · rw [Lexer.scan_reading hdrop hc (by simp [hblock, h125])]
    simp only [wordAt, List.cons_append, Lexer.lgetc_char hc hblank]
    simp [Lexer.content, Lexer.word, hblock, hbar]

/-- A character that was pushed back is the first one. -/
theorem skip_pushed {l' : Lexer} (hget : l.lgetc = (some c, l')) (hgap : isGap c = false) :
    l.skip (fun c => isblank c || c == 10) l.room = (some c, l') := by
  have hstop : (isblank c || c == 10) = false := hgap
  rw [Lexer.room, Lexer.skip, hget]
  simp only [hstop, Bool.false_eq_true, if_false]

theorem yylex_pushed_bar (hblock : l.block = 125) (s : Bytes) :
    ((l.reading s).lungetc (some 124)).yylex = (.token .BAR, l.reading s) := by
  have hget : ((l.reading s).lungetc (some 124)).lgetc = (some 124, l.reading s) :=
    Lexer.lgetc_pushed (by decide) (by decide) []
  rw [Lexer.yylex]
  simp only [Lexer.lungetc_block, Lexer.reading_block, hblock]
  rw [if_neg (by simp), Lexer.scan, skip_pushed hget (by decide)]
  simp [Lexer.content, Lexer.word, hblock]

/-- The end mark was pushed back. -/
theorem yylex_pushed_close (hblock : l.block = 125) (rest : Bytes) :
    (((l.reading rest).lungetc (some 125)).lungetc (some 125)).yylex
      = (.token .CLOSE, { l.reading rest with block := 0 }) := by
  have hget : (((l.reading rest).lungetc (some 125)).lungetc (some 125)).lgetc
      = (some 125, (l.reading rest).lungetc (some 125)) :=
    Lexer.lgetc_pushed (by decide) (by decide) [125]
  have hnext : ((l.reading rest).lungetc (some 125)).lgetc = (some 125, l.reading rest) :=
    Lexer.lgetc_pushed (by decide) (by decide) []
  rw [Lexer.yylex]
  simp only [Lexer.lungetc_block, Lexer.reading_block, hblock]
  rw [if_neg (by simp), Lexer.scan, skip_pushed hget (by decide)]
  simp [hblock, hnext]

/-! ## Tokens -/

/-- A word or a bar. -/
def Lexeme.isWord : Lexeme → Bool
  | .token (.STRING _) => true
  | .token .BAR => true
  | _ => false

theorem lexWords_stop {l l' : Lexer} (h : l.yylex = (t, l')) (ht : t.isWord = false) (n : Nat) :
    Lexer.lexWords (n + 1) l = ([], t, l') := by
  rw [Lexer.lexWords, h]
  split
  · next heq =>
    cases heq
    cases ht
  · next heq =>
    cases heq
    cases ht
  · next heq => rw [← heq]

theorem lexWords_string {l l' : Lexer} {w : Bytes} (h : l.yylex = (.token (.STRING w), l'))
    (n : Nat) :
    Lexer.lexWords (n + 1) l = (.STRING w :: (Lexer.lexWords n l').1, (Lexer.lexWords n l').2) := by
  rw [Lexer.lexWords, h]

theorem lexWords_bar {l l' : Lexer} (h : l.yylex = (.token .BAR, l')) (n : Nat) :
    Lexer.lexWords (n + 1) l = (.BAR :: (Lexer.lexWords n l').1, (Lexer.lexWords n l').2) := by
  rw [Lexer.lexWords, h]

theorem mem_of_lookup {ks : List (Bytes × Lexeme)} {w : Bytes} (h : ks.lookup w = some t) :
    t ∈ ks.map Prod.snd := by
  induction ks with
  | nil => cases h
  | cons k ks ih =>
    rw [List.lookup_cons] at h
    split at h
    · cases h
      exact List.mem_cons_self
    · exact List.mem_cons_of_mem _ (ih h)

/-- A word is a `STRING`, or it is a keyword. -/
theorem lookup_cases (w : Bytes) :
    lookup w = .token (.STRING w) ∨
      lookup w ∈ keywords.map Prod.snd ∧ (lookup w).isWord = false := by
  rw [lookup]
  cases h : keywords.lookup w with
  | none => exact Or.inl rfl
  | some k =>
    have hmem := mem_of_lookup h
    have hall : ∀ k ∈ keywords.map Prod.snd, k.isWord = false := by decide
    exact Or.inr ⟨hmem, hall k hmem⟩

/-- What comes out of an expression with this text: a keyword, or its words up to its end. -/
def WordsRead (l : Lexer) (rest : Bytes) (due : Bool) (text : Bytes)
    (r : List Token × Lexeme × Lexer) : Prop :=
  r.2.1 ∈ keywords.map Prod.snd ∨
    r.2 = (.token .CLOSE, { l.reading rest with block := 0 }) ∧
      text = if r.1 = [] then [] else dueBlank due ++ joined r.1

/-- A bar in front. -/
theorem WordsRead.bar {r : List Token × Lexeme × Lexer} (h : WordsRead l rest false text r)
    (due : Bool) :
    WordsRead l rest due (dueBlank due ++ 124 :: text) (.BAR :: r.1, r.2) := by
  refine h.imp id fun ⟨hclose, htext⟩ => ⟨hclose, ?_⟩
  rw [if_neg (by simp), joined, htext]
  split
  · next hnil =>
    rw [hnil]
    rfl
  · rfl

/-- A word in front of a blank. -/
theorem WordsRead.word {r : List Token × Lexeme × Lexer} (h : WordsRead l rest true text r)
    (due : Bool) (w : Bytes) :
    WordsRead l rest due (dueBlank due ++ (w ++ text)) (.STRING w :: r.1, r.2) := by
  refine h.imp id fun ⟨hclose, htext⟩ => ⟨hclose, ?_⟩
  rw [if_neg (by simp), joined, htext]
  rfl

theorem put_zero {p : Place} (hc : c ≠ 0) : 0 ∉ (put p c).1 := by
  have hword : ∀ quote run, (0 : UInt8) ∉ (putWord quote run c).1 := by
    intro quote run
    rw [putWord]
    split
    · simp
    split
    · simp
    split
    · simp
    split
    · simp
    split
    · split
      · simp
      · simp
    · simpa using hc.symm
  have hdue : ∀ due, (0 : UInt8) ∉ dueBlank due := by decide
  cases p with
  | gap due =>
    rw [put]
    split
    · simp
    split
    · simp only [List.mem_append, not_or]
      exact ⟨hdue due, by decide⟩
    · simp only [List.mem_append, not_or]
      exact ⟨hdue due, hword false false⟩
  | word quote run => exact hword quote run
  | brace =>
    rw [put]
    split
    · simp
    split
    · decide
    split
    · decide
    · simpa using hc.symm

theorem rejoin_zero {p : Place} (h : rejoin p e = some text) (hzero : 0 ∉ e) : 0 ∉ text := by
  induction e generalizing p text with
  | nil =>
    rw [rejoin] at h
    split at h
    · cases h
    · cases h
      simp
  | cons c e ih =>
    rw [rejoin_cons, Option.map_eq_some_iff] at h
    obtain ⟨t, ht, rfl⟩ := h
    rw [List.mem_append, not_or]
    exact ⟨put_zero fun hc => hzero (hc ▸ List.mem_cons_self),
      ih ht fun hmem => hzero (List.mem_cons_of_mem c hmem)⟩

/-- The loop over a word has read one, and what is behind it is still to come. -/
theorem WordsRead.lexeme {w : Bytes} {l' : Lexer} (hw : 0 ∉ w) {m : Lexer}
    (hlex : m.yylex
      = Ended.lexeme lookup "string too long" "unterminated block" "unterminated quote"
      (.text w l')) {n : Nat}
    (h : WordsRead l rest due text
      (.STRING w :: (Lexer.lexWords n l').1, (Lexer.lexWords n l').2)) :
    WordsRead l rest due text (Lexer.lexWords (n + 1) m) := by
  rw [Ended.lexeme, cstr_eq_self hw] at hlex
  rcases lookup_cases w with hstring | ⟨hkey, hstop⟩
  · rw [hstring] at hlex
    rw [lexWords_string hlex]
    exact h
  · rw [lexWords_stop hlex hstop]
    exact Or.inl hkey

/-- **The words of an expression.** The induction is on what is left of it; `due` is whether a blank
is due in front of the next word. -/
theorem lexWords_reads (hblock : l.block = 125) (hopen : Open e) (hplain : Plain e) (hzero : 0 ∉ e)
    (hlen : e.length + 1 < bufSize) (htext : rejoin (.gap due) e = some text) {n : Nat}
    (hn : 2 * e.length < n) :
    WordsRead l rest due text (Lexer.lexWords n (l.reading (e ++ tail rest))) := by
  induction hk : e.length using Nat.strongRecOn generalizing e due text n with
  | ind k ih =>
    subst hk
    obtain ⟨n, rfl⟩ : ∃ m, n = m + 1 := ⟨n - 1, by omega⟩
    -- from a place behind something on
    have hrest : ∀ {v : Bytes} {due : Bool} {t : Bytes} {m : Nat}, v <:+ e → v.length < e.length →
        rejoin (.gap due) v = some t → 2 * v.length < m →
        WordsRead l rest due t (Lexer.lexWords m (l.reading (v ++ tail rest))) := by
      intro v due t m hv hlt ht hm
      exact ih v.length hlt (hopen.of_suffix hv) (fun b hb => hplain b (hv.subset hb))
        (fun h0 => hzero (hv.subset h0)) (by omega) ht hm rfl
    rw [← rejoin_gap_dropWhile] at htext
    have hsuf : e.dropWhile isGap <:+ e := List.dropWhile_suffix isGap
    have hle := hsuf.length_le
    cases he : e.dropWhile isGap with
    | nil =>
      rw [he] at htext
      cases htext
      rw [lexWords_stop (yylex_close hblock he) rfl]
      exact Or.inr ⟨rfl, rfl⟩
    | cons c v =>
      rw [he, List.length_cons] at hle
      have hsufv : v <:+ e := (List.suffix_cons c v).trans (he ▸ hsuf)
      rw [he] at htext hsuf
      have hgap : isGap c = false := by
        have hhead := List.head?_dropWhile_not isGap e
        rw [he] at hhead
        simpa using hhead
      by_cases hbar : c = 124
      · subst hbar
        have hput : put (.gap due) 124 = (dueBlank due ++ [124], .gap false) := by simp [put, hgap]
        rw [rejoin_adds hput, Option.map_eq_some_iff] at htext
        obtain ⟨t, ht, rfl⟩ := htext
        rw [lexWords_bar (yylex_bar hblock he), List.append_assoc]
        exact (hrest hsufv (by omega) ht (by omega)).bar due
      · obtain ⟨m, hm, hlex⟩ := @yylex_word l rest e v c hblock hopen hplain he hbar
        have hput : put (.gap due) c = (dueBlank due ++ (put (.word false false) c).1,
            (put (.word false false) c).2) := by
          simp [put, hgap, hbar]
        have hword : rejoin (.gap due) (c :: v)
            = (rejoin (.word false false) (c :: v)).map (dueBlank due ++ ·) := by
          rw [rejoin_adds hput, rejoin_cons, Option.map_map]
          simp [Function.comp_def]
        rw [hword, Option.map_eq_some_iff] at htext
        obtain ⟨text, htext, rfl⟩ := htext
        have hzero' := rejoin_zero htext fun h0 => hzero (hsuf.subset h0)
        have hout := (@outcome l rest (c :: v) (hopen.of_suffix hsuf)
          fun b hb => hplain b (hsuf.subset hb)).1 m false []
        generalize wordAt l rest m false (c :: v) [] = r at hlex hout
        cases hout with
        | blank out u hu hlt h =>
          rw [htext] at h
          obtain ⟨t, ht, rfl⟩ := Option.map_eq_some_iff.mp h.symm
          rw [List.length_cons] at hlt
          have hread := (hrest (m := n) (hu.trans hsuf) (by omega) ht (by omega)).word due out
          exact WordsRead.lexeme (fun h0 => hzero' (List.mem_append_left _ h0)) hlex hread
        | bar out u hu hlt h =>
          rw [htext] at h
          obtain ⟨t, ht, rfl⟩ := Option.map_eq_some_iff.mp h.symm
          rw [List.length_cons] at hlt
          refine WordsRead.lexeme (fun h0 => hzero' (List.mem_append_left _ h0)) hlex ?_
          obtain ⟨n, rfl⟩ : ∃ m, n = m + 1 := ⟨n - 1, by omega⟩
          rw [lexWords_bar (yylex_pushed_bar hblock _)]
          have hread :=
            ((hrest (m := n) (hu.trans hsuf) (by omega) ht (by omega)).bar true).word due out
          simpa [dueBlank] using hread
        | close out h =>
          rw [htext] at h
          cases h
          refine WordsRead.lexeme hzero' hlex ?_
          obtain ⟨n, rfl⟩ : ∃ m, n = m + 1 := ⟨n - 1, by omega⟩
          rw [lexWords_stop (yylex_pushed_close hblock rest) rfl]
          exact Or.inr ⟨rfl, by simp [joined]⟩
        | unclosed h r =>
          rw [htext] at h
          cases h
        | tooLong h l' =>
          simp only [List.length_nil, Place.held, List.length_cons] at h
          omega
        | noFuel h quote l' => omega

/-! ## What is kept -/

/-- No brace stands in front of a blank or a bar. -/
def BracesKept (e : Bytes) : Prop := ∀ b, [125, b] <:+: e → isspace b = false ∧ b ≠ 124

theorem BracesKept.of_suffix (h : BracesKept e) (hv : v <:+ e) : BracesKept v :=
  fun b hb => h b (hb.trans hv.isInfix)

/-- The brace that is held back. -/
def Place.pending : Place → Bytes
  | .brace => [125]
  | _ => []

/-- Apart from blanks, a character is put where it was, or held back. -/
theorem filter_put (p : Place) (hc : p = .brace → isspace c = false ∧ c ≠ 124) :
    (put p c).1.filter (!isspace ·) ++ (put p c).2.pending
    = p.pending ++ [c].filter (!isspace ·) := by
  have hword : ∀ quote run,
      (putWord quote run c).1.filter (!isspace ·) ++ (putWord quote run c).2.pending
      = [c].filter (!isspace ·) := by
    intro quote run
    rw [putWord]
    split
    · next hs =>
      rw [Bool.and_eq_true] at hs
      simp [Place.pending, hs.2]
    split
    · next h34 =>
      rw [eq_of_beq h34]
      rfl
    split
    · next hbar =>
      rw [Bool.and_eq_true] at hbar
      rw [eq_of_beq hbar.2]
      rfl
    split
    · next hbrace =>
      rw [Bool.and_eq_true] at hbrace
      rw [eq_of_beq hbrace.2]
      rfl
    split
    · next hb =>
      have hs := isblank_isspace hb
      have hone : [c].filter (!isspace ·) = [] := by simp [hs]
      rw [hone]
      cases run <;> rfl
    · simp [Place.pending]
  have hdue : ∀ due, (dueBlank due).filter (!isspace ·) = [] := by decide
  cases p with
  | gap due =>
    rw [put]
    split
    · next hgap =>
      have hs : isspace c = true := by
        rw [isGap, Bool.or_eq_true] at hgap
        rcases hgap with hb | h10
        · exact isblank_isspace hb
        · rw [eq_of_beq h10]
          rfl
      simp [Place.pending, hs]
    split
    · next hbar =>
      rw [eq_of_beq hbar, List.filter_append, hdue]
      rfl
    · rw [List.filter_append, hdue, List.nil_append]
      exact hword false false
  | word quote run => exact hword quote run
  | brace =>
    obtain ⟨hs, hbar⟩ := hc rfl
    by_cases h34 : c = 34
    · subst h34
      rfl
    · simp [put, hs, hbar, h34, Place.pending]
      rfl

/-- Only the character itself is held back. -/
theorem pending_put (p : Place) (c : UInt8) :
    (put p c).2.pending = [] ∨ (put p c).2.pending = [c] := by
  have hword : ∀ quote run,
      (putWord quote run c).2.pending = [] ∨ (putWord quote run c).2.pending = [c] := by
    intro quote run
    rw [putWord]
    split
    · exact Or.inl rfl
    split
    · exact Or.inl rfl
    split
    · exact Or.inl rfl
    split
    · next hbrace =>
      rw [Bool.and_eq_true] at hbrace
      exact Or.inr (by rw [eq_of_beq hbrace.2]; rfl)
    split
    · exact Or.inl rfl
    · exact Or.inl rfl
  cases p with
  | gap due =>
    rw [put]
    split
    · exact Or.inl rfl
    split
    · exact Or.inl rfl
    · exact hword false false
  | word quote run => exact hword quote run
  | brace =>
    rw [put]
    split
    · exact Or.inl rfl
    split
    · exact Or.inl rfl
    split
    · exact Or.inl rfl
    · exact Or.inl rfl

/-- So nothing is lost of an expression but blanks. -/
theorem filter_rejoin {p : Place} (hopen : Open (p.pending ++ e))
    (hkept : BracesKept (p.pending ++ e)) (h : rejoin p e = some text) :
    text.filter (!isspace ·) = p.pending ++ e.filter (!isspace ·) := by
  induction e generalizing p text with
  | nil =>
    cases p with
    | brace => exact absurd ⟨[], [], rfl⟩ hopen
    | gap due =>
      cases h
      rfl
    | word quote run =>
      cases quote with
      | true => cases h
      | false =>
        cases h
        rfl
  | cons c e ih =>
    rw [rejoin_cons, Option.map_eq_some_iff] at h
    obtain ⟨t, ht, rfl⟩ := h
    have hc : p = .brace → isspace c = false ∧ c ≠ 124 := by
      intro hp
      subst hp
      exact hkept c ⟨[], e, rfl⟩
    have hput := filter_put p hc
    have hsuf : (put p c).2.pending ++ e <:+ p.pending ++ c :: e := by
      rcases pending_put p c with hnone | hheld
      · rw [hnone]
        exact (List.suffix_cons c e).trans (List.suffix_append _ _)
      · rw [hheld]
        exact List.suffix_append _ _
    rw [List.filter_append, ih (hopen.of_suffix hsuf) (hkept.of_suffix hsuf) ht,
      ← List.append_assoc, hput, List.append_assoc, ← List.filter_append]
    rfl

/-- **An expression comes out as it is put together.** The lexer is behind the `{{` of an expression
`e` that has no end mark in it, no longer than a word may be, and with its double quotes closed.
Then it finds a keyword in it, or it returns the words of `e` and its end mark and is right behind
it; and `string` and `stringy` make of the words the text that `rejoin` says. Apart from blanks,
that text has all characters of `e` if none of its braces stands in front of a blank or a bar. -/
theorem expression_text (l : Lexer) (hblock : l.block = 125) (hunget : l.file.ungetbuf = [])
    {e rest text : Bytes} (hstream : l.file.stream = e ++ 125 :: 125 :: rest) (hopen : Open e)
    (hplain : Plain e) (hzero : 0 ∉ e) (hlen : e.length + 1 < bufSize)
    (htext : rejoin (.gap false) e = some text) {n : Nat} (hn : 2 * e.length < n) :
    ∃ ts t l', l.lexWords n = (ts, t, l') ∧
      (t ∈ keywords.map Prod.snd ∨
        t = .token .CLOSE ∧ l' = { l.reading rest with block := 0 } ∧
          (∀ x : Strings, x.tokens = ts → x.string = text) ∧
          ∀ y : Stringy, y.tokens = ts → y.value = text) ∧
      (BracesKept e → text.filter (!isspace ·) = e.filter (!isspace ·)) := by
  have hl : l.reading (e ++ tail rest) = l := (Lexer.eq_reading hunget hstream).symm
  have hreads := @lexWords_reads l rest e text false hblock hopen hplain hzero hlen htext n hn
  rw [hl] at hreads
  refine ⟨(l.lexWords n).1, (l.lexWords n).2.1, (l.lexWords n).2.2, rfl, ?_,
    fun hkept => filter_rejoin (p := .gap false) hopen hkept htext⟩
  refine hreads.imp id fun ⟨hclose, hjoined⟩ => ?_
  have htokens : (l.lexWords n).1 ≠ [] → text = joined (l.lexWords n).1 := by
    intro hne
    rw [hjoined, if_neg hne]
    rfl
  refine ⟨by rw [hclose], by rw [hclose], fun x hx => ?_, fun y hy => ?_⟩
  · rw [x.string_eq_joined, hx]
    exact (htokens (by rw [← hx]; exact List.cons_ne_nil _ _)).symm
  · obtain ⟨hvalue, hne⟩ := y.value_eq_joined
    rw [hvalue, hy]
    exact (htokens (by rw [← hy]; exact hne)).symm

/-- The lexer in front of an expression. -/
def inExpression (s : Bytes) : Lexer := ⟨⟨[], s, false⟩, [], true, 125, []⟩

theorem call_reassembled :
    let l := inExpression (lit "a || f(\"x  y\") \x7d\x7d")
    ∃ ts t l', l.lexWords 40 = (ts, t, l') ∧
      (t ∈ keywords.map Prod.snd ∨
        t = .token .CLOSE ∧ l' = { l.reading [] with block := 0 } ∧
          (∀ x : Strings, x.tokens = ts → x.string = lit "a ||f(\"x y\")") ∧
          ∀ y : Stringy, y.tokens = ts → y.value = lit "a ||f(\"x y\")") ∧
      (BracesKept (lit "a || f(\"x  y\") ") →
        (lit "a ||f(\"x y\")").filter (!isspace ·)
          = (lit "a || f(\"x  y\") ").filter (!isspace ·)) := by
  have hplain : ∀ b ∈ lit "a || f(\"x  y\") ", isExpand b = false := by decide +kernel
  exact expression_text (inExpression (lit "a || f(\"x  y\") \x7d\x7d")) rfl rfl rfl
    (Open.of_not_mem (by decide)) hplain (by decide) (by decide) (by decide) (by decide)

end Expression

end Tmpl

end Galileo
