import Mathlib.Data.Bool.Basic
import Mathlib.Data.List.DropRight
import Galileo.Spec.ConfText

/-!
# Reading a configuration text

`l.reading u v` is the lexer with `u` pushed back in front of the stream `v`. Between two tokens
there is at most one character pushed back, the one that ended a word, and the lexer may have made
one space of the blanks behind it: `At` says in front of which text it is, blanks aside. From there
`yylex` reads a token however it is written (`yylex_writes`).
-/

set_option autoImplicit false

namespace Galileo.Conf

open Lib

/-- Characters that `igetc` gives as they are. -/
def Seen (c : UInt8) : Prop := c ≠ startExpand ∧ c ≠ doneExpand

/-- Characters that reach the loops of the lexer as they are, but for blanks. -/
def Plain (c : UInt8) : Prop := Seen c ∧ c ≠ 92

theorem plain_of_blank {c : UInt8} (h : isblank c = true) : Plain c := by
  simp only [isblank, Bool.or_eq_true, beq_iff_eq] at h
  rcases h with rfl | rfl <;> exact ⟨⟨by decide, by decide⟩, by decide⟩

theorem skipMarks_cons {c : UInt8} (hc : Seen c) (e : Bool) (s : Bytes) :
    skipMarks e (c :: s) = (e, c :: s) := by
  rw [skipMarks, if_neg (by rw [beq_iff_eq]; exact hc.1), if_neg (by rw [beq_iff_eq]; exact hc.2)]

theorem Unmarked.tail {c : UInt8} {s : Bytes} (h : Unmarked (c :: s)) : Unmarked s := by
  intro d hd
  exact h d (List.mem_cons_of_mem _ hd)

namespace Lexer

variable {b l : Lexer} {c d : UInt8} {s u v : Bytes}

def reading (l : Lexer) (u v : Bytes) : Lexer :=
  { l with file := { l.file with ungetbuf := u, stream := v } }

@[simp] theorem lungetc_reading (l : Lexer) (c : UInt8) (u v : Bytes) :
    (l.reading u v).lungetc (some c) = l.reading (c :: u) v := rfl

theorem lt_room (l : Lexer) (u v : Bytes) : u.length + v.length + 3 < (l.reading u v).room := by
  simp only [room, reading, List.map_cons, List.sum_cons]
  omega

theorem room_eq (l : Lexer) : ∃ n, l.room = n + 2 := ⟨_, rfl⟩

/-! ## One character -/

theorem igetc_pushed (hc : Seen c) : (l.reading (c :: u) v).igetc = (some c, l.reading u v) := by
  simp only [igetc, reading, skipMarks_cons hc]

theorem igetc_stream (hc : Seen c) : (l.reading [] (c :: v)).igetc = (some c, l.reading [] v) := by
  simp only [igetc, reading, skipMarks, skipMarks_cons hc]

theorem igetc_nil : (l.reading [] []).igetc = (none, l.reading [] []) := by
  simp only [igetc, reading, skipMarks]

/-- The next character, where at most one is pushed back. -/
theorem igetc_next (hu : u.length ≤ 1) (h : u ++ v = c :: s) (hc : Seen c) :
    (l.reading u v).igetc = (some c, l.reading [] s) := by
  match u, hu with
  | [], _ =>
    obtain rfl : v = c :: s := h
    exact igetc_stream hc
  | [x], _ =>
    obtain ⟨rfl, rfl⟩ := List.cons.inj h
    exact igetc_pushed hc

theorem lgetc_of_igetc {l' : Lexer} (h : l.igetc = (some c, l')) (hc : c ≠ 92) :
    l.lgetc = if isblank c then
        (some 32, { l' with file := { l'.file with stream := l'.file.stream.dropWhile isblank } })
      else (some c, l') := by
  obtain ⟨n, hn⟩ := room_eq l
  have hread : l.unescape l.room = (some c, l') := by
    rw [hn, unescape, h]
    dsimp only
    rw [if_neg (by rwa [beq_iff_eq])]
  rw [lgetc, hread]

theorem lgetc_char (hu : u.length ≤ 1) (h : u ++ v = c :: s) (hc : Plain c)
    (hb : isblank c = false) : (l.reading u v).lgetc = (some c, l.reading [] s) := by
  rw [lgetc_of_igetc (igetc_next hu h hc.1) hc.2, hb]
  rfl

theorem lgetc_blank (hu : u.length ≤ 1) (h : u ++ v = c :: s) (hb : isblank c = true) :
    (l.reading u v).lgetc = (some 32, l.reading [] (s.dropWhile isblank)) := by
  rw [lgetc_of_igetc (igetc_next hu h (plain_of_blank hb).1) (plain_of_blank hb).2, hb]
  rfl

theorem lgetc_pushed (hc : Plain c) (hb : isblank c = false) :
    (l.reading (c :: u) v).lgetc = (some c, l.reading u v) := by
  rw [lgetc_of_igetc (igetc_pushed hc.1) hc.2, hb]
  rfl

/-- The character a blank or another is read as. The blanks behind a blank are gone. -/
theorem lgetc_next (hu : u.length ≤ 1) (h : u ++ v = c :: s) (hc : Plain c) :
    ∃ c' s', (l.reading u v).lgetc = (some c', l.reading [] s') ∧
      (c' :: s').dropWhile isblank = (c :: s).dropWhile isblank ∧ s'.length ≤ s.length ∧
      (c' = c ∨ isblank c = true ∧ c' = 32) := by
  cases hb : isblank c with
  | false => exact ⟨c, s, lgetc_char hu h hc hb, rfl, Nat.le_refl _, Or.inl rfl⟩
  | true =>
    refine ⟨32, s.dropWhile isblank, lgetc_blank hu h hb, ?_, (List.dropWhile_suffix _).length_le,
      Or.inr ⟨rfl, rfl⟩⟩
    rw [List.dropWhile_cons_of_pos (by rfl), List.dropWhile_cons_of_pos hb,
      List.dropWhile_idempotent]

/-- At the end of the file there is a newline that it does not have. -/
def atEof (l : Lexer) : Lexer := { l.reading [] [] with file := ⟨[], [], true⟩ }

theorem lgetc_end (heof : l.file.eofReached = false) :
    (l.reading [] []).lgetc = (some 10, l.atEof) := by
  obtain ⟨n, hn⟩ := room_eq (l.reading [] [])
  have hread : (l.reading [] []).unescape (l.reading [] []).room = (none, l.reading [] []) := by
    rw [hn, unescape, igetc_nil]
  rw [lgetc, hread]
  dsimp only
  rw [if_neg (by rw [reading, heof]; exact Bool.noConfusion)]
  rfl

theorem lgetc_atEof (houter : l.outer = []) : l.atEof.lgetc = (none, l.atEof) := by
  obtain ⟨n, hn⟩ := room_eq l.atEof
  have hread : l.atEof.unescape l.atEof.room = (none, l.atEof) := by
    have hget : l.atEof.igetc = (none, l.atEof) := by
      simp only [igetc, atEof, reading, skipMarks]
    rw [hn, unescape, hget]
  have hnone : l.atEof.outer = [] := houter
  rw [lgetc, hread]
  dsimp only
  rw [hnone, if_pos (by rfl)]
  rfl

/-! ## In front of a token -/

/-- The lexer is in front of this text, blanks aside. -/
def At (b l : Lexer) (s : Bytes) : Prop :=
  ∃ u v, u.length ≤ 1 ∧ (u ++ v).dropWhile isblank = s.dropWhile isblank ∧ l = b.reading u v

theorem At.congr {t : Bytes} (h : At b l s) (hst : s.dropWhile isblank = t.dropWhile isblank) :
    At b l t := by
  obtain ⟨u, v, hu, hs, hl⟩ := h
  exact ⟨u, v, hu, hs.trans hst, hl⟩

theorem at_reading (b : Lexer) (s : Bytes) : At b (b.reading [] s) s :=
  ⟨[], s, Nat.zero_le 1, rfl, rfl⟩

/-- Behind a word, whose last character is pushed back. -/
theorem at_pushed {t : Bytes} (h : (c :: s).dropWhile isblank = t.dropWhile isblank) :
    At b (b.reading [c] s) t := ⟨[c], s, Nat.le_refl 1, h, rfl⟩

theorem skip_at (h : At b l (c :: s)) (hc : Plain c) (hb : isblank c = false) (n : Nat) :
    l.skip isblank (n + 2) = (some c, b.reading [] s) := by
  obtain ⟨u, v, hu, hs, rfl⟩ := h
  rw [List.dropWhile_cons_of_neg (by rw [hb]; exact Bool.noConfusion)] at hs
  have hstop : ∀ m, (b.reading [] (c :: s)).skip isblank (m + 1) = (some c, b.reading [] s) := by
    intro m
    rw [skip, lgetc_char (u := []) (Nat.zero_le 1) rfl hc hb]
    dsimp only
    rw [hb]
    rfl
  cases huv : u ++ v with
  | nil =>
    rw [huv] at hs
    cases hs
  | cons x t =>
    rw [huv] at hs
    cases hx : isblank x with
    | true =>
      rw [List.dropWhile_cons_of_pos hx] at hs
      rw [skip, lgetc_blank hu huv hx, hs]
      exact hstop n
    | false =>
      rw [List.dropWhile_cons_of_neg (by rw [hx]; exact Bool.noConfusion)] at hs
      obtain ⟨rfl, rfl⟩ := List.cons.inj hs
      rw [skip, lgetc_char hu huv hc hb]
      dsimp only
      rw [hb]
      rfl

theorem skip_end (h : At b l []) (heof : b.file.eofReached = false) (n : Nat) :
    l.skip isblank (n + 2) = (some 10, b.atEof) := by
  obtain ⟨u, v, hu, hs, rfl⟩ := h
  have hstop : ∀ m, (b.reading [] []).skip isblank (m + 1) = (some 10, b.atEof) := by
    intro m
    rw [skip, lgetc_end heof]
    rfl
  cases huv : u ++ v with
  | nil =>
    obtain ⟨rfl, rfl⟩ := List.append_eq_nil_iff.mp huv
    exact hstop (n + 1)
  | cons x t =>
    rw [huv] at hs
    cases hx : isblank x with
    | true =>
      rw [List.dropWhile_cons_of_pos hx] at hs
      rw [skip, lgetc_blank hu huv hx, hs]
      exact hstop n
    | false =>
      rw [List.dropWhile_cons_of_neg (by rw [hx]; exact Bool.noConfusion)] at hs
      cases hs

/-! ## Quotes -/

theorem lgetcQuote_next (hu : u.length ≤ 1) (h : u ++ v = c :: s) (hc : Seen c) (quotec : UInt8) :
    (l.reading u v).lgetcQuote quotec = (some c, l.reading [] s) := by
  rw [lgetcQuote, igetc_next hu h hc]

/-- There is room for a character that is in the value. -/
theorem store_fits {c : UInt8} {s buf : Bytes} (h : buf.length + (c :: s).length + 1 < bufSize) :
    ¬bufSize - 1 ≤ buf.length + 1 ∧ (buf ++ [c]).length + s.length + 1 < bufSize := by
  simp only [List.length_cons, List.length_append, List.length_nil] at h ⊢
  omega

/-- **What is in quotes is what `unquote` says.** A character that the lexer looks at behind a
backslash is pushed back, so one may be; what is behind the quotes does not matter. -/
theorem quoteLoop_unquote {quotec : UInt8} {n : Nat} {buf w rest behind : Bytes}
    (hw : unquote quotec w = some (s, rest)) (hmarks : Unmarked w) (hn : w.length < n)
    (hlen : buf.length + s.length + 1 < bufSize) (hu : u.length ≤ 1) (huv : u ++ v = w ++ behind) :
    quoteLoop quotec n buf (l.reading u v)
      = (.STRING (buf ++ s), l.reading [] (rest ++ behind)) := by
  induction n generalizing u v w buf s with
  | zero => exact absurd hn (Nat.not_lt_zero _)
  | succ n ih =>
    revert hw
    fun_cases unquote quotec w <;> intro hw
    case case1 => cases hw
    case case2 w =>
      rw [List.cons_append] at huv
      rw [quoteLoop, lgetcQuote_next hu huv (hmarks _ List.mem_cons_self)]
      dsimp only
      rw [if_pos (by rfl)]
      exact ih hw hmarks.tail (Nat.succ_lt_succ_iff.mp hn) hlen (u := []) (Nat.zero_le 1) rfl
    case case3 h => cases hw
    case case4 next w hnext _ =>
      rw [List.cons_append, List.cons_append] at huv
      obtain ⟨⟨s', rest'⟩, hw', heq⟩ := Option.map_eq_some_iff.mp hw
      obtain ⟨rfl, rfl⟩ := Prod.mk.inj heq
      obtain ⟨hfull, hlen'⟩ := store_fits hlen
      rw [quoteLoop, lgetcQuote_next hu huv (hmarks _ List.mem_cons_self)]
      dsimp only
      rw [if_neg (by decide), if_pos (by rfl),
        lgetcQuote_next (u := []) (Nat.zero_le 1) rfl (hmarks.tail _ List.mem_cons_self)]
      dsimp only
      rw [if_pos (by simpa [or_assoc] using hnext), if_neg hfull]
      refine (ih hw' hmarks.tail.tail (by simp only [List.length_cons] at hn; omega) hlen' (u := [])
        (Nat.zero_le 1) rfl).trans ?_
      rw [List.append_assoc]
      rfl
    case case5 w _ hne =>
      rw [List.cons_append, List.cons_append] at huv
      rw [quoteLoop, lgetcQuote_next hu huv (hmarks _ List.mem_cons_self)]
      dsimp only
      rw [if_neg (by decide), if_pos (by rfl),
        lgetcQuote_next (u := []) (Nat.zero_le 1) rfl (hmarks.tail _ List.mem_cons_self)]
      dsimp only
      rw [if_neg (by simpa [or_assoc] using hne), if_pos (by rfl)]
      exact ih hw hmarks.tail.tail (by simp only [List.length_cons] at hn; omega) hlen (u := [])
        (Nat.zero_le 1) rfl
    case case6 next w hne hnl _ =>
      rw [List.cons_append, List.cons_append] at huv
      obtain ⟨⟨s', rest'⟩, hw', heq⟩ := Option.map_eq_some_iff.mp hw
      obtain ⟨rfl, rfl⟩ := Prod.mk.inj heq
      obtain ⟨hfull, hlen'⟩ := store_fits hlen
      rw [quoteLoop, lgetcQuote_next hu huv (hmarks _ List.mem_cons_self)]
      dsimp only
      rw [if_neg (by decide), if_pos (by rfl),
        lgetcQuote_next (u := []) (Nat.zero_le 1) rfl (hmarks.tail _ List.mem_cons_self)]
      dsimp only
      rw [if_neg (by simpa [or_assoc] using hne), if_neg (by rwa [beq_iff_eq]), if_neg hfull,
        lungetc_reading]
      refine (ih hw' hmarks.tail (Nat.succ_lt_succ_iff.mp hn) hlen' (u := [next])
        (Nat.le_refl 1) rfl).trans ?_
      rw [List.append_assoc]
      rfl
    case case7 w hnl hslash =>
      rw [List.cons_append] at huv
      obtain ⟨rfl, rfl⟩ := Prod.mk.inj (Option.some.inj hw)
      rw [quoteLoop, lgetcQuote_next hu huv (hmarks _ List.mem_cons_self)]
      dsimp only
      rw [if_neg (by rwa [beq_iff_eq]), if_neg (by rwa [beq_iff_eq]), if_pos (beq_self_eq_true _),
        List.append_nil]
    case case8 w _ _ hne => cases hw
    case case9 c w hnl hslash hquote hzero =>
      rw [List.cons_append] at huv
      obtain ⟨⟨s', rest'⟩, hw', heq⟩ := Option.map_eq_some_iff.mp hw
      obtain ⟨rfl, rfl⟩ := Prod.mk.inj heq
      obtain ⟨hfull, hlen'⟩ := store_fits hlen
      rw [quoteLoop, lgetcQuote_next hu huv (hmarks _ List.mem_cons_self)]
      dsimp only
      rw [if_neg (by rwa [beq_iff_eq]), if_neg (by rwa [beq_iff_eq]), if_neg (by rwa [beq_iff_eq]),
        if_neg (by rwa [beq_iff_eq]), if_neg hfull]
      refine (ih hw' hmarks.tail (Nat.succ_lt_succ_iff.mp hn) hlen' (u := [])
        (Nat.zero_le 1) rfl).trans ?_
      rw [List.append_assoc]
      rfl

/-! ## Words and numbers -/

/-- **The loops over digits and words** collect up to the character that ends them. What was pushed
back is part of what they collect. -/
theorem collect_run {allowed : UInt8 → Bool} {cs rest : Bytes} (buf : Bytes)
    (hcs : ∀ x ∈ cs, allowed x = true ∧ Plain x ∧ isblank x = false) (hd : Plain d)
    (hend : allowed d = false) (hblank : isblank d = true → allowed 32 = false)
    (hu : u.length ≤ cs.length) (huv : u ++ v = cs ++ d :: rest) {n : Nat} (hn : cs.length < n)
    (hlen : buf.length + cs.length + 1 < bufSize) (c : UInt8) :
    ∃ d' t, collect allowed n buf c (l.reading u v)
      = .ok (buf ++ c :: cs, some d', l.reading [] t) ∧
      (d' :: t).dropWhile isblank = (d :: rest).dropWhile isblank ∧
      (d' = d ∨ isblank d = true ∧ d' = 32) := by
  induction cs generalizing u v n buf c with
  | nil =>
    obtain ⟨n, rfl⟩ := Nat.exists_eq_add_one_of_ne_zero (Nat.ne_zero_of_lt hn)
    obtain rfl := List.eq_nil_of_length_eq_zero (Nat.le_zero.mp hu)
    obtain ⟨d', t, hget, hdrop, -, hshown⟩ := lgetc_next (l := l) (u := []) (Nat.zero_le 1) huv hd
    have hend' : allowed d' = false := by
      rcases hshown with rfl | ⟨hb, rfl⟩
      · exact hend
      · exact hblank hb
    refine ⟨d', t, ?_, hdrop, hshown⟩
    have hroom : ¬bufSize ≤ buf.length + 1 := Nat.not_le_of_lt hlen
    rw [collect, if_neg hroom, hget]
    dsimp only
    rw [hend']
    rfl
  | cons x cs ih =>
    obtain ⟨n, rfl⟩ := Nat.exists_eq_add_one_of_ne_zero (Nat.ne_zero_of_lt hn)
    obtain ⟨hx, hplain, hnb⟩ := hcs x List.mem_cons_self
    have hlen' : (buf ++ [c]).length + cs.length + 1 < bufSize := by
      rw [List.length_append, List.length_singleton]
      rw [List.length_cons] at hlen
      omega
    -- the next character is pushed back or on the stream
    obtain ⟨u', v', hget, hu', huv'⟩ : ∃ u' v', (l.reading u v).lgetc = (some x, l.reading u' v') ∧
        u'.length ≤ cs.length ∧ u' ++ v' = cs ++ d :: rest := by
      cases u with
      | nil => exact ⟨[], _, lgetc_char (Nat.zero_le 1) huv hplain hnb, Nat.zero_le _, rfl⟩
      | cons y u =>
        obtain ⟨rfl, huv'⟩ := List.cons.inj huv
        exact ⟨u, v, lgetc_pushed hplain hnb, Nat.succ_le_succ_iff.mp hu, huv'⟩
    obtain ⟨d', t, hok, hdrop, hshown⟩ :=
      ih (buf ++ [c]) (fun y hy => hcs y (List.mem_cons_of_mem _ hy)) hu' huv'
      (Nat.succ_lt_succ_iff.mp hn) hlen' x
    refine ⟨d', t, ?_, hdrop, hshown⟩
    have hroom : ¬bufSize ≤ buf.length + 1 := by
      rw [List.length_cons] at hlen
      omega
    rw [collect, if_neg hroom, hget]
    dsimp only
    rw [hx, if_pos rfl, hok, List.append_assoc]
    rfl

/-- The characters of a word are read as they are. -/
theorem plain_of_allowed (h : allowedInString c = true) (hslash : c ≠ 92) :
    Plain c ∧ isblank c = false := by
  have hrange : 33 ≤ c ∧ c ≤ 126 := by
    simp only [allowedInString, isalnum, isalpha, isdigit, ispunct, Bool.or_eq_true,
      Bool.and_eq_true, decide_eq_true_eq] at h
    grind
  refine ⟨⟨⟨?_, ?_⟩, hslash⟩, ?_⟩
  · rintro rfl
    exact absurd hrange.1 (by decide)
  · rintro rfl
    exact absurd hrange.1 (by decide)
  · rw [isblank, Bool.or_eq_false_iff, beq_eq_false_iff_ne, beq_eq_false_iff_ne]
    refine ⟨?_, ?_⟩
    · rintro rfl
      exact absurd hrange.1 (by decide)
    · rintro rfl
      exact absurd hrange.1 (by decide)

theorem plain_of_endsWord (h : endsWord d = true) : Plain d ∧ allowedInString d = false := by
  simp only [endsWord, isblank, Bool.or_eq_true, beq_iff_eq] at h
  rcases h with (((((rfl | rfl) | rfl) | rfl) | rfl) | rfl) | rfl <;>
    exact ⟨⟨⟨by decide, by decide⟩, by decide⟩, by decide⟩

theorem word_bare {cs rest : Bytes} (hc : beginsWord c = true)
    (hcs : ∀ x ∈ cs, allowedInString x = true ∧ x ≠ 92) (hd : endsWord d = true)
    (hu : u.length ≤ cs.length) (huv : u ++ v = cs ++ d :: rest) (hlen : cs.length + 1 < bufSize) :
    ∃ l', (l.reading u v).word c = (lookup (c :: cs), l') ∧ At l l' (d :: rest) := by
  obtain ⟨hplain, hend⟩ := plain_of_endsWord hd
  have hfuel : cs.length < (l.reading u v).room := by
    have hroom := lt_room l u v
    have htotal := congrArg List.length huv
    simp only [List.length_append, List.length_cons] at htotal
    omega
  obtain ⟨d', t, hok, hdrop, -⟩ := collect_run (l := l) []
    (fun x hx => ⟨(hcs x hx).1, plain_of_allowed (hcs x hx).1 (hcs x hx).2⟩) hplain hend
      (fun _ => by decide)
    hu huv hfuel (by rwa [List.length_nil, Nat.zero_add]) c
  refine ⟨l.reading [d'] t, ?_, at_pushed hdrop⟩
  rw [word, if_pos hc, hok]
  rfl

/-- What is pushed back is read again in its order. -/
theorem foldl_lungetc (cs u v : Bytes) :
    cs.reverse.foldl (fun l c => l.lungetc (some c)) (l.reading u v) = l.reading (cs ++ u) v := by
  induction cs generalizing u with
  | nil => rfl
  | cons c cs ih =>
    rw [List.reverse_cons, List.foldl_append, ih]
    rfl

theorem plain_of_digit (h : isdigit c = true) : Plain c ∧ isblank c = false := by
  refine plain_of_allowed ?_ ?_
  · rw [allowedInString, isalnum, h, Bool.or_true, Bool.true_or]
  · rintro rfl
    exact absurd h (by decide)

theorem not_digit_of_dropWhile {cs cs' : Bytes} (h : cs.dropWhile isdigit = d :: cs') :
    isdigit d = false := by
  have hne : cs.dropWhile isdigit ≠ [] := by
    rw [h]
    exact List.cons_ne_nil _ _
  have hhead := List.head_dropWhile_not isdigit hne
  simpa only [h, List.head_cons] using hhead

/-- The digits a word begins with are pushed back, with the character behind them. -/
theorem number_digits {ds rest : Bytes} (hc : isdigit c = true) (hds : ∀ x ∈ ds, isdigit x = true)
    (hd : Plain d) (hb : isblank d = false) (hdigit : isdigit d = false)
    (hend : allowedToEndNumber d = false) (hlen : ds.length + 1 < bufSize) :
    (l.reading [] (ds ++ d :: rest)).number c = (l.reading (ds ++ [d]) rest).word c := by
  have hfuel : ds.length < (l.reading [] (ds ++ d :: rest)).room := by
    have hroom := lt_room l [] (ds ++ d :: rest)
    simp only [List.length_append, List.length_cons] at hroom
    omega
  obtain ⟨d', t, hok, hdrop, hshown⟩ := collect_run (l := l) []
    (fun x hx => ⟨hds x hx, plain_of_digit (hds x hx)⟩) hd hdigit (fun _ => by decide)
    (Nat.zero_le _) (List.nil_append (ds ++ d :: rest)) hfuel
      (by rwa [List.length_nil, Nat.zero_add]) c
  obtain rfl : d' = d := hshown.resolve_right fun hblank =>
    Bool.noConfusion (hb.symm.trans hblank.1)
  have hnb : ¬isblank d' = true := by
    rw [hb]
    exact Bool.noConfusion
  rw [List.dropWhile_cons_of_neg hnb, List.dropWhile_cons_of_neg hnb] at hdrop
  obtain rfl : t = rest := (List.cons.inj hdrop).2
  have hminus : ¬(c == 45) = true := by
    rintro heq
    rw [eq_of_beq heq] at hc
    exact absurd hc (by decide)
  rw [number, if_pos (by rw [hc, Bool.or_true]), hok]
  dsimp only [List.nil_append]
  have hnot : ¬((c :: ds != [45]) && (some d').all allowedToEndNumber) = true := by
    rw [Option.all_some, hend, Bool.and_false]
    exact Bool.noConfusion
  rw [if_neg hnot, if_neg hminus, List.tail_cons, lungetc_reading, foldl_lungetc]

/-- A word that begins with digits is read twice. -/
theorem number_bare {cs : Bytes} (rest : Bytes) (h : Bare c cs) (hd : endsWord d = true)
    (hlen : cs.length + 1 < bufSize) :
    ∃ l', (l.reading [] (cs ++ d :: rest)).number c = (lookup (c :: cs), l') ∧
      At l l' (d :: rest) := by
  cases hdigit : isdigit c with
  | false =>
    have hnot : ¬(c == 45 || isdigit c) = true := by
      rw [hdigit, Bool.or_false, beq_iff_eq]
      rintro rfl
      exact absurd h.begins (by decide)
    rw [number, if_neg hnot]
    exact word_bare h.begins h.inside hd (Nat.zero_le _) rfl hlen
  | true =>
    obtain ⟨x, hx, hend⟩ := h.number hdigit
    obtain ⟨cs', hcs'⟩ : ∃ cs', cs.dropWhile isdigit = x :: cs' := List.head?_eq_some_iff.mp hx
    have hsplit : cs.takeWhile isdigit ++ x :: cs' = cs := by
      rw [← hcs', List.takeWhile_append_dropWhile]
    have hds : ∀ y ∈ cs.takeWhile isdigit, isdigit y = true := fun y hy => List.mem_takeWhile_imp hy
    have hxd := not_digit_of_dropWhile hcs'
    generalize cs.takeWhile isdigit = ds at hsplit hds
    subst hsplit
    obtain ⟨hplain, hnb⟩ := plain_of_allowed (h.inside x (by simp)).1 (h.inside x (by simp)).2
    have hshort : ds.length + 1 < bufSize := by
      simp only [List.length_append, List.length_cons] at hlen
      omega
    rw [List.append_assoc, List.cons_append, number_digits hdigit hds hplain hnb hxd hend hshort]
    refine word_bare h.begins h.inside hd ?_ (by simp) hlen
    simp

theorem plain_of_endsNumber (h : endsNumber d = true) : Plain d ∧ isdigit d = false := by
  simp only [endsNumber, isblank, Bool.or_eq_true, beq_iff_eq] at h
  rcases h with (((rfl | rfl) | rfl) | rfl) | rfl <;>
    exact ⟨⟨⟨by decide, by decide⟩, by decide⟩, by decide⟩

theorem number_number {cs : Bytes} (rest : Bytes) {n : Int} (hc : c = 45 ∨ isdigit c = true)
    (hcs : ∀ x ∈ cs, isdigit x = true) (hn : strtonum (c :: cs) (-2 ^ 63) (2 ^ 63 - 1) = some n)
    (hlen : cs.length + 1 < bufSize) (hd : endsNumber d = true) :
    ∃ l', (l.reading [] (cs ++ d :: rest)).number c = (.NUMBER n, l') ∧ At l l' (d :: rest) := by
  obtain ⟨hplain, hdigit⟩ := plain_of_endsNumber hd
  have hfuel : cs.length < (l.reading [] (cs ++ d :: rest)).room := by
    have hroom := lt_room l [] (cs ++ d :: rest)
    simp only [List.length_append, List.length_cons] at hroom
    omega
  obtain ⟨d', t, hok, hdrop, hshown⟩ := collect_run (l := l) []
    (fun x hx => ⟨hcs x hx, plain_of_digit (hcs x hx)⟩) hplain hdigit (fun _ => by decide)
    (Nat.zero_le _) (List.nil_append (cs ++ d :: rest)) hfuel
      (by rwa [List.length_nil, Nat.zero_add]) c
  refine ⟨l.reading [d'] t, ?_, at_pushed hdrop⟩
  have hends : allowedToEndNumber d' = true := by
    rcases hshown with rfl | ⟨-, rfl⟩
    · simp only [endsNumber, isblank, Bool.or_eq_true, beq_iff_eq] at hd
      rcases hd with (((rfl | rfl) | rfl) | rfl) | rfl <;> decide
    · decide
  have hminus : (c :: cs != [45]) = true := by
    rw [bne_iff_ne]
    intro heq
    have hnone : strtonum [45] (-2 ^ 63) (2 ^ 63 - 1) = none := by decide
    rw [heq, hnone] at hn
    cases hn
  have hbegin : (c == 45 || isdigit c) = true := by
    rcases hc with rfl | hc
    · rfl
    · rw [hc, Bool.or_true]
  rw [number, if_pos hbegin, hok]
  dsimp only [List.nil_append]
  rw [if_pos (by rw [hminus, Option.all_some, hends]; rfl), hn]
  rfl

/-! ## Tokens -/

/-- A comment ends with its line. -/
theorem skip_comment {s rest : Bytes} (hs : ∀ x ∈ s, Plain x ∧ x ≠ 10) {n : Nat}
    (hn : s.length < n) : (l.reading [] (s ++ 10 :: rest)).skip (· != 10) n
    = (some 10, l.reading [] rest) := by
  induction n generalizing s with
  | zero => exact absurd hn (Nat.not_lt_zero _)
  | succ n ih =>
    cases s with
    | nil =>
      rw [List.nil_append, skip,
        lgetc_char (u := []) (Nat.zero_le 1) rfl ⟨⟨by decide, by decide⟩, by decide⟩ rfl]
      rfl
    | cons x s =>
      obtain ⟨hplain, hnl⟩ := hs x List.mem_cons_self
      have htail : ∀ y ∈ s, Plain y ∧ y ≠ 10 := fun y hy => hs y (List.mem_cons_of_mem _ hy)
      have hshort : s.length < n := Nat.succ_lt_succ_iff.mp hn
      rw [List.cons_append, skip]
      cases hb : isblank x with
      | false =>
        rw [lgetc_char (u := []) (Nat.zero_le 1) rfl hplain hb]
        dsimp only
        rw [if_pos (by rw [bne_iff_ne]; exact hnl)]
        exact ih htail hshort
      | true =>
        -- the blanks behind it are gone
        have hdrop : (s ++ 10 :: rest).dropWhile isblank = s.dropWhile isblank ++ 10 :: rest := by
          rw [List.dropWhile_append]
          split
          · next hempty =>
            rw [List.isEmpty_iff.mp hempty]
            rfl
          · rfl
        rw [lgetc_blank (u := []) (Nat.zero_le 1) rfl hb, hdrop]
        dsimp only
        rw [if_pos (by rfl)]
        exact ih (fun y hy => htail y ((List.dropWhile_suffix _).subset hy))
          (Nat.lt_of_le_of_lt (List.dropWhile_suffix _).length_le hshort)

/-- The characters that `lgetc` does not give as they are, and those that `yylex` looks for in front
of a token. -/
def special : List UInt8 := [startExpand, doneExpand, 9, 32, 34, 35, 36, 39, 92]

theorem not_special {p : UInt8 → Bool} (h : p c = true) (hp : ∀ x ∈ special, p x = false) :
    c ∉ special := by
  intro hc
  exact Bool.noConfusion (h.symm.trans (hp c hc))

theorem plain_of_not_special (h : c ∉ special) : Plain c ∧ isblank c = false := by
  simp only [special, List.mem_cons, List.not_mem_nil, or_false, not_or] at h
  obtain ⟨h1, h2, htab, hblank, -, -, -, -, hslash⟩ := h
  refine ⟨⟨⟨h1, h2⟩, hslash⟩, ?_⟩
  rw [isblank, beq_eq_false_iff_ne.mpr hblank, beq_eq_false_iff_ne.mpr htab]
  rfl

/-- In front of a character that begins a token. -/
theorem yylex_at (h : At b l (c :: s)) (hc : Plain c) (hb : isblank c = false) (hcomment : c ≠ 35)
    (hdollar : c ≠ 36) :
    l.yylex = some (if c == 39 || c == 34 then
        quoteLoop c (b.reading [] s).room [] (b.reading [] s) else (b.reading [] s).number c) := by
  obtain ⟨n, hn⟩ := room_eq l
  rw [yylex, hn, top, hn, skip_at h hc hb]
  have hnot : ¬(some c == some (35 : UInt8)) = true := by
    rw [beq_iff_eq]
    exact fun heq => hcomment (Option.some.inj heq)
  have hnot' : ¬(c == 36 && !(b.reading [] s).expanding) = true := by
    rw [beq_eq_false_iff_ne.mpr hdollar, Bool.false_and]
    exact Bool.noConfusion
  dsimp only
  rw [if_neg hnot]
  dsimp only
  rw [if_neg hnot']
  split <;> rfl

theorem yylex_number (h : At b l (c :: s)) (hc : c ∉ special) :
    l.yylex = some ((b.reading [] s).number c) := by
  obtain ⟨hplain, hb⟩ := plain_of_not_special hc
  simp only [special, List.mem_cons, List.not_mem_nil, or_false, not_or] at hc
  obtain ⟨-, -, -, -, hdouble, hcomment, hdollar, hsingle, -⟩ := hc
  rw [yylex_at h hplain hb hcomment hdollar, beq_eq_false_iff_ne.mpr hdouble,
    beq_eq_false_iff_ne.mpr hsingle]
  rfl

theorem yylex_comment {rest : Bytes} (hs : ∀ x ∈ s, Plain x ∧ x ≠ 10)
    (h : At b l (35 :: (s ++ 10 :: rest))) : l.yylex = some (.char 10, b.reading [] rest) := by
  have hfuel : s.length < (b.reading [] (s ++ 10 :: rest)).room := by
    have hroom := lt_room b [] (s ++ 10 :: rest)
    simp only [List.length_append, List.length_cons] at hroom
    omega
  obtain ⟨n, hn⟩ := room_eq l
  rw [yylex, hn, top, hn, skip_at h ⟨⟨by decide, by decide⟩, by decide⟩ rfl]
  dsimp only
  rw [if_pos (by rfl), skip_comment hs hfuel]
  rfl

/-- **A token is read however it is written**, and the lexer is then in front of what follows. -/
theorem yylex_writes {t : Tok} {w rest : Bytes} (ht : Writes t w rest) (h : At b l (w ++ rest)) :
    ∃ l', l.yylex = some (t, l') ∧ At b l' rest := by
  cases ht with
  | @sign c _ hc =>
    have hnot : c ∉ special := by
      rcases hc with rfl | rfl | rfl | rfl <;> decide
    have hnumber : (b.reading [] rest).number c = (.char c, b.reading [] rest) := by
      rcases hc with rfl | rfl | rfl | rfl <;> rfl
    refine ⟨b.reading [] rest, ?_, at_reading b rest⟩
    exact (yylex_number h hnot).trans (congrArg some hnumber)
  | @comment s _ hs hmarks =>
    have hplain : ∀ x ∈ s, Plain x ∧ x ≠ 10 := fun x hx => ⟨⟨hmarks x hx, (hs x hx).2⟩, (hs x hx).1⟩
    rw [List.append_assoc] at h
    exact ⟨b.reading [] rest, yylex_comment hplain h, at_reading b rest⟩
  | @quoted quotec w s _ hquote hw hmarks hlen =>
    have hplain : Plain quotec ∧ isblank quotec = false ∧ quotec ≠ 35 ∧ quotec ≠ 36 := by
      rcases hquote with rfl | rfl <;>
        exact ⟨⟨⟨by decide, by decide⟩, by decide⟩, by decide, by decide, by decide⟩
    have hloop : (quotec == 39 || quotec == 34) = true := by
      rcases hquote with rfl | rfl <;> rfl
    have hfuel : w.length < (b.reading [] (w ++ rest)).room := by
      have hroom := lt_room b [] (w ++ rest)
      rw [List.length_append] at hroom
      omega
    refine ⟨b.reading [] rest, ?_, at_reading b rest⟩
    rw [yylex_at h hplain.1 hplain.2.1 hplain.2.2.1 hplain.2.2.2, if_pos hloop]
    exact congrArg some (quoteLoop_unquote hw hmarks hfuel (by rwa [List.length_nil, Nat.zero_add])
      (Nat.zero_le 1) rfl)
  | @word c d cs rest hbare hlen hd =>
    obtain ⟨l', hnumber, hat⟩ := number_bare (l := b) rest hbare hd hlen
    exact ⟨l',
      (yylex_number h (not_special hbare.begins (by decide +kernel))).trans (congrArg some hnumber),
      hat⟩
  | @number c d cs rest n hc hcs hn hlen hd =>
    have hbegin : (c == 45 || isdigit c) = true := by
      rcases hc with rfl | hc
      · rfl
      · rw [hc, Bool.or_true]
    have hnot : c ∉ special :=
      not_special (p := fun c => c == 45 || isdigit c) hbegin (by decide +kernel)
    obtain ⟨l', hnumber, hat⟩ := number_number (l := b) rest hc hcs hn hlen hd
    exact ⟨l', (yylex_number h hnot).trans (congrArg some hnumber), hat⟩

/-- At the end of a file there is a newline first. -/
theorem yylex_end (h : At b l []) (heof : b.file.eofReached = false) :
    l.yylex = some (.char 10, b.atEof) := by
  obtain ⟨n, hn⟩ := room_eq l
  rw [yylex, hn, top, hn, skip_end h heof]
  rfl

theorem yylex_atEof (houter : b.outer = []) : b.atEof.yylex = some (.eof, b.atEof) := by
  obtain ⟨n, hn⟩ := room_eq b.atEof
  rw [yylex, hn, top, hn, skip, lgetc_atEof houter]
  rfl

end Lexer

end Galileo.Conf
