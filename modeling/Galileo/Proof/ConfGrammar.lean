import Galileo.Proof.ConfText
import Galileo.Proof.Memory

/-!
# The grammar of a configuration

`yyparse` is a table of steps from token to token. Here it is read backwards: what takes the parser
from the start of a line to the start of a line is lines of the grammar, and what it has done on the
way is the actions of those lines with the actions of the lexer between them.
-/

set_option autoImplicit false

namespace Galileo.Conf

open Lib

/-- What the lexer does to the parse: it reports errors, leaves files and looks up macros. -/
def Action.ofLexer : Action → Bool
  | .eof => true
  | .error _ => true
  | .reference _ => true
  | _ => false

/-- All strings an action has. -/
def Action.strings : Action → List Bytes
  | .includeFile name _ => [name]
  | .error msg => [msg]
  | .varset nam val => [nam, val]
  | .reference nam => [nam]
  | .chroot path => [path]
  | .proxy host => [host]
  | .option (.source addr (some (.string port))) => [addr, port]
  | .option (.source addr _) => [addr]
  | .option (.hostname name) => [name]
  | .option (.stylesheet path) => [path]
  | _ => []

/-- The strings of an action are strings of C. -/
def Action.NoNul (a : Action) : Prop := ∀ s ∈ a.strings, 0 ∉ s

section Lexer

variable {lim : Limits} {serv : Bytes → Bytes → Option UInt16} {p p' p'' : Parse}

/-- From one state of the parse to another by actions of the lexer. -/
def Follows (lim : Limits) (serv : Bytes → Bytes → Option UInt16) (p p' : Parse) : Prop :=
  ∃ as, (∀ a ∈ as, Action.ofLexer a = true ∧ a.NoNul) ∧ acts lim serv p as = some p'

theorem Follows.refl (p : Parse) : Follows lim serv p p := ⟨[], by simp, rfl⟩

theorem Follows.one {a : Action} (ha : a.ofLexer = true) (hnul : a.NoNul)
    (h : act lim serv p a = some p') : Follows lim serv p p' := by
  refine ⟨[a], by simpa using ⟨ha, hnul⟩, ?_⟩
  rw [acts_cons, h]
  rfl

theorem Follows.trans (h : Follows lim serv p p') (h' : Follows lim serv p' p'') :
    Follows lim serv p p'' := by
  obtain ⟨as, has, hp'⟩ := h
  obtain ⟨as', has', hp''⟩ := h'
  refine ⟨as ++ as', fun a ha => ?_, ?_⟩
  · rcases List.mem_append.mp ha with ha | ha
    · exact has a ha
    · exact has' a ha
  · rw [acts_append, hp']
    exact hp''

theorem follows_yyerror {msg : Bytes} (hmsg : 0 ∉ msg) (p : Parse) :
    Follows lim serv p (p.yyerror msg) :=
  .one (a := .error msg) rfl (List.forall_mem_singleton.mpr hmsg) rfl

theorem follows_popfile (p : Parse) : Follows lim serv p p.popfile :=
  .one (a := .eof) rfl (List.forall_mem_nil _) rfl

theorem follows_symget {nam val : Bytes} (hnam : 0 ∉ nam) {symhead : List Sym}
    (h : symget nam p.symhead = (some val, symhead)) :
    Follows lim serv p { p with symhead := symhead } := by
  refine .one (a := .reference nam) rfl (List.forall_mem_singleton.mpr hnam) ?_
  rw [act, h]

namespace Lexer

variable {l : Lexer}

theorem igetc_parse (l : Lexer) : l.igetc.2.parse = l.parse := by
  rw [igetc]
  split
  · rfl
  · split <;> rfl

theorem unescape_parse (n : Nat) (l : Lexer) : (l.unescape n).2.parse = l.parse := by
  induction n generalizing l with
  | zero => rfl
  | succ n ih =>
    rw [unescape]
    have hget := igetc_parse l
    rcases hread : l.igetc with ⟨_ | c, l₁⟩
    · rw [hread] at hget
      exact hget
    · rw [hread] at hget
      dsimp only
      split
      · have hget' := igetc_parse l₁
        rcases hread' : l₁.igetc with ⟨_ | c', l₂⟩
        · rw [hread'] at hget'
          exact hget'.trans hget
        · rw [hread'] at hget'
          dsimp only
          split
          · exact (ih l₂).trans (hget'.trans hget)
          · exact hget'.trans hget
      · exact hget

theorem follows_popfiles (fs : List File) (l : Lexer) :
    Follows lim serv l.parse (popfiles fs l).2.parse := by
  induction fs generalizing l with
  | nil => exact .refl _
  | cons f fs ih =>
    have hpop : Follows lim serv l.parse (l.popfile f fs).parse := follows_popfile l.parse
    have hget := igetc_parse (l.popfile f fs)
    rw [popfiles]
    rcases hread : (l.popfile f fs).igetc with ⟨_ | c, l₁⟩
    · rw [hread] at hget
      refine (hpop.trans ?_).trans (ih l₁)
      rw [← hget]
      exact .refl _
    · rw [hread] at hget
      dsimp only at hget ⊢
      rw [hget]
      exact hpop

theorem follows_lgetc (l : Lexer) : Follows lim serv l.parse l.lgetc.2.parse := by
  have hsame := unescape_parse l.room l
  rw [lgetc]
  rcases hread : l.unescape l.room with ⟨_ | c, l₁⟩
  · rw [hread] at hsame
    rw [← hsame]
    dsimp only
    split
    · exact follows_popfiles l₁.outer l₁
    · exact .refl _
  · rw [hread] at hsame
    rw [← hsame]
    dsimp only
    split <;> exact .refl _

theorem lungetc_parse (c : Option UInt8) (l : Lexer) : (l.lungetc c).parse = l.parse := by
  cases c <;> rfl

theorem follows_skip (q : UInt8 → Bool) (n : Nat) (l : Lexer) :
    Follows lim serv l.parse (l.skip q n).2.parse := by
  induction n generalizing l with
  | zero => exact .refl _
  | succ n ih =>
    have hget : Follows lim serv l.parse l.lgetc.2.parse := follows_lgetc l
    rw [skip]
    rcases hread : l.lgetc with ⟨_ | c, l₁⟩
    · rw [hread] at hget
      exact hget
    · rw [hread] at hget
      dsimp only
      split
      · exact hget.trans (ih l₁)
      · exact hget

theorem follows_lgetcQuote (quotec : UInt8) (l : Lexer) :
    Follows lim serv l.parse (l.lgetcQuote quotec).2.parse := by
  have hget := igetc_parse l
  rw [lgetcQuote]
  rcases hread : l.igetc with ⟨_ | c, l₁⟩
  · rw [hread] at hget
    dsimp only at hget ⊢
    have herror : Follows lim serv l.parse
        (l₁.yyerror (lit "reached end of file while parsing quoted string")).parse := by
      rw [← hget]
      exact follows_yyerror (by decide) _
    split
    · exact herror
    · exact herror.trans (follows_popfile _)
  · rw [hread] at hget
    dsimp only at hget ⊢
    rw [hget]
    exact .refl _

/-- What a part of the lexer comes to: a string is a string of C. -/
structure Lexed (lim : Limits) (serv : Bytes → Bytes → Option UInt16) (p : Parse)
    (r : Tok × Lexer) : Prop where
  follows : Follows lim serv p r.2.parse
  string : ∀ s, r.1 = .STRING s → 0 ∉ s

theorem lexed_fail {msg : Bytes} (hmsg : 0 ∉ msg) (l : Lexer) :
    Lexed lim serv l.parse (l.fail msg) where
  follows := (follows_yyerror hmsg l.parse).trans (follows_skip _ _ (l.yyerror msg))
  string := by
    intro s h
    cases h

theorem Lexed.after {r : Tok × Lexer} (h : Follows lim serv p p') (hr : Lexed lim serv p' r) :
    Lexed lim serv p r := ⟨h.trans hr.follows, hr.string⟩

theorem zero_notMem_snoc {buf : Bytes} {c : UInt8} (hbuf : 0 ∉ buf) (hc : c ≠ 0) :
    0 ∉ buf ++ [c] := by
  intro hmem
  rcases List.mem_append.mp hmem with hmem | hmem
  · exact hbuf hmem
  · exact hc (List.mem_singleton.mp hmem).symm

theorem lexed_quoteLoop {quotec : UInt8} (hquote : quotec ≠ 0) (n : Nat) {buf : Bytes}
    (hbuf : 0 ∉ buf) (l : Lexer) : Lexed lim serv l.parse (quoteLoop quotec n buf l) := by
  induction n generalizing buf l with
  | zero => exact ⟨.refl _, fun s h => Tok.noConfusion h⟩
  | succ n ih =>
    have hstore : ∀ {c : UInt8} (l : Lexer), c ≠ 0 → Lexed lim serv l.parse
        (if bufSize - 1 ≤ buf.length + 1 then l.fail (lit "string too long")
          else quoteLoop quotec n (buf ++ [c]) l) := by
      intro c l hc
      split
      · exact lexed_fail (by decide) l
      · exact ih (zero_notMem_snoc hbuf hc) l
    have hget : Follows lim serv l.parse (l.lgetcQuote quotec).2.parse :=
      follows_lgetcQuote quotec l
    rw [quoteLoop]
    rcases hread : l.lgetcQuote quotec with ⟨_ | c, l₁⟩
    · rw [hread] at hget
      exact ⟨hget, fun s h => Tok.noConfusion h⟩
    · rw [hread] at hget
      dsimp only at hget ⊢
      split
      · exact (ih hbuf l₁).after hget
      · split
        · -- behind a backslash
          have hget' : Follows lim serv l₁.parse (l₁.lgetcQuote quotec).2.parse :=
            follows_lgetcQuote quotec l₁
          rcases hread' : l₁.lgetcQuote quotec with ⟨_ | next, l₂⟩
          · rw [hread'] at hget'
            exact ⟨hget.trans hget', fun s h => Tok.noConfusion h⟩
          · rw [hread'] at hget'
            dsimp only at hget' ⊢
            split
            · next hnext =>
              have hne : next ≠ 0 := by
                rintro rfl
                simp only [Bool.or_eq_true, beq_iff_eq] at hnext
                rcases hnext with (h | h) | h
                · exact hquote h.symm
                · exact absurd h (by decide)
                · exact absurd h (by decide)
              exact (hstore l₂ hne).after (hget.trans hget')
            · split
              · exact (ih hbuf l₂).after (hget.trans hget')
              · exact (hstore (l₂.lungetc (some next)) (by decide)).after (hget.trans hget')
        · split
          · refine ⟨hget, fun s h => ?_⟩
            rw [← Tok.STRING.inj h]
            exact hbuf
          · split
            · exact (lexed_fail (by decide) l₁).after hget
            · next hzero =>
              exact (hstore l₁ (by rwa [beq_iff_eq] at hzero)).after hget

variable (lim serv) in
/-- The loops over digits and words: their characters, and what they do to the parse. -/
theorem collect_cases (allowed : UInt8 → Bool) {q : UInt8 → Prop} (hq : ∀ c, allowed c = true → q c)
    (n : Nat) (buf : Bytes) (hbuf : ∀ x ∈ buf, q x) {c : UInt8} (hc : q c) (l : Lexer) :
    (∃ l', collect allowed n buf c l = .error l' ∧ Follows lim serv l.parse l'.parse) ∨
      ∃ w c' l', collect allowed n buf c l = .ok (w, c', l') ∧ Follows lim serv l.parse l'.parse ∧
        ∀ x ∈ w, q x := by
  induction n generalizing buf c l with
  | zero => exact Or.inl ⟨l, rfl, .refl _⟩
  | succ n ih =>
    have hbuf' : ∀ x ∈ buf ++ [c], q x := by
      intro x hx
      rcases List.mem_append.mp hx with hx | hx
      · exact hbuf x hx
      · rw [List.mem_singleton.mp hx]
        exact hc
    have hget : Follows lim serv l.parse l.lgetc.2.parse := follows_lgetc l
    rw [collect]
    split
    · exact Or.inl ⟨l, rfl, .refl _⟩
    · rcases hread : l.lgetc with ⟨_ | c', l₁⟩
      · rw [hread] at hget
        exact Or.inr ⟨_, _, _, rfl, hget, hbuf'⟩
      · rw [hread] at hget
        dsimp only at hget ⊢
        split
        · next hallowed =>
          rcases ih _ hbuf' (hq c' hallowed) l₁ with ⟨l', heq, hf⟩ | ⟨w, c'', l', heq, hf, hw⟩
          · exact Or.inl ⟨l', heq, hget.trans hf⟩
          · exact Or.inr ⟨w, c'', l', heq, hget.trans hf, hw⟩
        · exact Or.inr ⟨_, _, _, rfl, hget, hbuf'⟩

theorem eq_of_lookup {w s : Bytes} (h : lookup w = .STRING s) : s = w := by
  rw [lookup_eq_find] at h
  cases hfind : keywords.find? fun e => compare w e.1 == .eq with
  | none =>
    rw [hfind] at h
    exact (Tok.STRING.inj h).symm
  | some e =>
    rw [hfind] at h
    have hmem := List.mem_of_find?_eq_some hfind
    have hall : ∀ e ∈ keywords, ∀ s, e.2 ≠ .STRING s := by
      intro e he s
      simp only [keywords, List.mem_cons, List.not_mem_nil, or_false] at he
      rcases he with rfl | rfl | rfl | rfl | rfl | rfl | rfl | rfl | rfl | rfl | rfl | rfl | rfl
        | rfl | rfl <;>
        exact Tok.noConfusion
    exact absurd h (hall e hmem s)

theorem lexed_word (c : UInt8) (l : Lexer) : Lexed lim serv l.parse (l.word c) := by
  rw [word]
  split
  · next hbegins =>
    have hc : c ≠ 0 := by
      rintro rfl
      exact absurd hbegins (by decide)
    have hallowed : ∀ x, allowedInString x = true → x ≠ 0 := by
      rintro x hx rfl
      exact absurd hx (by decide)
    rcases collect_cases lim serv allowedInString hallowed l.room [] (by simp) hc l with
      ⟨l', heq, hf⟩ | ⟨w, c', l', heq, hf, hw⟩
    · rw [heq]
      exact (lexed_fail (by decide) l').after hf
    · rw [heq]
      refine ⟨by rw [lungetc_parse]; exact hf, fun s h => ?_⟩
      rw [eq_of_lookup h]
      exact fun hzero => hw 0 hzero rfl
  · split
    · exact ⟨.refl _, fun s h => Tok.noConfusion h⟩
    · exact ⟨.refl _, fun s h => Tok.noConfusion h⟩

theorem foldl_lungetc_parse (cs : Bytes) (l : Lexer) :
    (cs.foldl (fun l c => l.lungetc (some c)) l).parse = l.parse := by
  induction cs generalizing l with
  | nil => rfl
  | cons c cs ih => exact ih _

theorem zero_notMem_errstr (s : Bytes) (min : Int) : 0 ∉ errstr s min := by
  rw [errstr]
  split
  · split <;> decide
  · decide

theorem lexed_number (c : UInt8) (l : Lexer) : Lexed lim serv l.parse (l.number c) := by
  rw [number]
  split
  · next hbegins =>
    have hc : c ≠ 0 := by
      rintro rfl
      exact absurd hbegins (by decide)
    have hdigit : ∀ x, isdigit x = true → x ≠ 0 := by
      rintro x hx rfl
      exact absurd hx (by decide)
    rcases collect_cases lim serv isdigit hdigit l.room [] (by simp) hc l with
      ⟨l', heq, hf⟩ | ⟨w, c', l', heq, hf, hw⟩
    · rw [heq]
      exact (lexed_fail (by decide) l').after hf
    · rw [heq]
      dsimp only
      have hf' : Follows lim serv l.parse (l'.lungetc c').parse := by
        rw [lungetc_parse]
        exact hf
      split
      · split
        · exact ⟨hf', fun s h => Tok.noConfusion h⟩
        · refine (lexed_fail ?_ _).after hf'
          have hzero : (0 : UInt8) ∉ w := fun hmem => hw 0 hmem rfl
          simp only [List.mem_append, hzero, zero_notMem_errstr, or_false]
          decide
      · have hback := foldl_lungetc_parse w.tail.reverse (l'.lungetc c')
        rw [← hback] at hf'
        split
        · exact ⟨hf', fun s h => Tok.noConfusion h⟩
        · exact (lexed_word c _).after hf'
  · exact lexed_word c l

variable (lim serv) in
theorem macroLoop_cases (n : Nat) {buf : Bytes} (hbuf : 0 ∉ buf) (l : Lexer) :
    (∃ r, macroLoop n buf l = .error r ∧ Lexed lim serv l.parse r) ∨
      ∃ nam l', macroLoop n buf l = .ok (nam, l') ∧ Follows lim serv l.parse l'.parse ∧
        0 ∉ nam := by
  induction n generalizing buf l with
  | zero => exact Or.inl ⟨_, rfl, .refl _, fun s h => Tok.noConfusion h⟩
  | succ n ih =>
    have hget : Follows lim serv l.parse l.lgetc.2.parse := follows_lgetc l
    rw [macroLoop]
    rcases hread : l.lgetc with ⟨_ | c, l₁⟩
    · rw [hread] at hget
      exact Or.inl ⟨_, rfl, hget, fun s h => Tok.noConfusion h⟩
    · rw [hread] at hget
      dsimp only at hget ⊢
      split
      · exact Or.inl ⟨_, rfl, (lexed_fail (by decide) l₁).after hget⟩
      · split
        · next hname =>
          have hc : c ≠ 0 := by
            rintro rfl
            exact absurd hname (by decide)
          rcases ih (zero_notMem_snoc hbuf hc) l₁ with ⟨r, heq, hr⟩ | ⟨nam, l', heq, hf, hnam⟩
          · exact Or.inl ⟨r, heq, hr.after hget⟩
          · exact Or.inr ⟨nam, l', heq, hget.trans hf, hnam⟩
        · exact Or.inr ⟨_, _, rfl, hget, hbuf⟩

theorem lexed_top {n : Nat} {r : Tok × Lexer} (h : top n l = some r) :
    Lexed lim serv l.parse r := by
  induction n generalizing l with
  | zero => cases h
  | succ n ih =>
    rw [top] at h
    have hskip : Follows lim serv l.parse (l.skip isblank l.room).2.parse :=
      follows_skip isblank l.room l
    rcases hread : l.skip isblank l.room with ⟨c, l₁⟩
    rw [hread] at h hskip
    dsimp only at h hskip
    obtain ⟨c₂, l₂, heq, hf⟩ : ∃ c₂ l₂,
      (if (c == some 35) = true then l₁.skip (· != 10) l₁.room else (c, l₁))
        = (c₂, l₂) ∧ Follows lim serv l.parse l₂.parse := by
      split
      · exact ⟨_, _, rfl, hskip.trans (follows_skip (· != 10) l₁.room l₁)⟩
      · exact ⟨_, _, rfl, hskip⟩
    rw [heq] at h
    dsimp only at h
    cases c₂ with
    | none =>
      cases h
      exact ⟨hf, fun s h => Tok.noConfusion h⟩
    | some c =>
      dsimp only at h
      split at h
      · rcases macroLoop_cases lim serv l₂.room (List.not_mem_nil (a := 0)) l₂ with
          ⟨r', hr', hlexed⟩ | ⟨nam, l₃, hok, hf', hnam⟩
        · rw [hr'] at h
          cases h
          exact hlexed.after hf
        · rw [hok] at h
          dsimp only at h
          rcases hsym : symget nam l₃.parse.symhead with ⟨_ | val, symhead⟩
          · rw [hsym] at h
            cases h
            refine (lexed_fail ?_ l₃).after (hf.trans hf')
            simp only [List.mem_append, hnam, or_false]
            decide
          · rw [hsym] at h
            exact (ih h).after ((hf.trans hf').trans (follows_symget hnam hsym))
      · split at h
        · next hquote =>
          cases h
          have hne : c ≠ 0 := by
            rintro rfl
            exact absurd hquote (by decide)
          exact (lexed_quoteLoop hne _ (by simp) l₂).after hf
        · cases h
          exact (lexed_number c l₂).after hf

/-- **What `yylex` does to the parse is done by actions**, and its strings are strings of C. -/
theorem lexed_yylex {r : Tok × Lexer} (h : l.yylex = some r) : Lexed lim serv l.parse r :=
  lexed_top h

end Lexer

end Lexer

/-! ## The tokens of a parse are lines -/

section Lines

variable {files : Bytes → Option Bytes} {s s' : State} {t : Tok} {ts : List Tok}
    {as as' : List Action}

theorem Strings.tokens_append (x : Strings) (s : Bytes) :
    x.tokens ++ [.STRING s] = (⟨x.first, x.more ++ [s]⟩ : Strings).tokens := by
  simp [Strings.tokens]

theorem Strings.value_append (x : Strings) (s : Bytes) :
    x.value ++ s = (⟨x.first, x.more ++ [s]⟩ : Strings).value := by
  simp [Strings.value]

/-- A newline behind the options of a block. -/
theorem ProxyTree.newline (x : ProxyTree) :
    ∃ y : ProxyTree, y.opened = x.opened ++ [.char 10] ∧ y.begun = x.begun := by
  obtain ⟨host, optnl, first, firstnl, more⟩ := x
  have hmore : ∀ n, newlines (n + 1) = newlines n ++ [.char 10] := fun n => List.replicate_succ'
  rcases List.eq_nil_or_concat more with rfl | ⟨more, ⟨o, n⟩, rfl⟩
  · refine ⟨⟨host, optnl, first, firstnl + 1, []⟩, ?_, rfl⟩
    simp [ProxyTree.opened, hmore]
  · refine ⟨⟨host, optnl, first, firstnl, more ++ [(o, n + 1)]⟩, ?_, ?_⟩
    · simp [ProxyTree.opened, hmore (n + 1)]
    · simp [ProxyTree.begun]

/-- One more option, with its newline. -/
theorem ProxyTree.option (x : ProxyTree) (o : OptTree) :
    ∃ y : ProxyTree, y.opened = x.opened ++ (o.tokens ++ [.char 10]) ∧
      y.begun = x.begun ++ [.option o.opt] := by
  obtain ⟨host, optnl, first, firstnl, more⟩ := x
  refine ⟨⟨host, optnl, first, firstnl, more ++ [(o, 0)]⟩, ?_, ?_⟩
  · simp [ProxyTree.opened, newlines]
  · simp [ProxyTree.begun]

/-- The part of a block in front of an option. -/
def InBlock (first : Bool) (ts : List Tok) (as : List Action) : Prop :=
  if first then ∃ host n, ts = [.PROXY, .STRING host, .char 123] ++ newlines n ∧ as = [.proxy host]
  else ∃ x : ProxyTree, ts = x.opened ∧ as = x.begun

/-- A block with an option that is complete. -/
def Ended (first : Bool) (ts : List Tok) (as : List Action) : Prop :=
  ∃ ts₀ as₀ o, InBlock first ts₀ as₀ ∧ ts = ts₀ ++ OptTree.tokens o ∧ as = as₀ ++ [.option o.opt]

/-- What the parser has read of a line in each of its states, and done. -/
inductive SoFar (files : Bytes → Option Bytes) : State → List Tok → List Action → Prop
  | start : SoFar files .start [] []
  | includeFile : SoFar files .includeFile [.INCLUDE] []
  | includeName (x : Strings) : SoFar files (.includeName x.value) (.INCLUDE :: x.tokens) []
  | varset (nam : Bytes) : SoFar files (.varset nam) [.STRING nam] []
  | varsetValue (nam : Bytes) : SoFar files (.varsetValue nam) [.STRING nam, .char 61] []
  | prefork : SoFar files .prefork [.PREFORK] []
  | chroot : SoFar files .chroot [.CHROOT] []
  | proxy : SoFar files .proxy [.PROXY] []
  | proxyName (host : Bytes) : SoFar files .proxyName [.PROXY, .STRING host] [.proxy host]
  | block {ts : List Tok} {as : List Action} (h : InBlock true ts as) : SoFar files .block ts as
  | options {ts : List Tok} {as : List Action} (h : InBlock false ts as) :
      SoFar files .options ts as
  | optionEnd {ts : List Tok} {as : List Action} (h : Ended false ts as) :
      SoFar files .optionEnd ts as
  | source {first : Bool} {ts : List Tok} {as : List Action} (h : InBlock first ts as) :
    SoFar files (.source first) (ts ++ [.SOURCE]) as
  | sourceAddr {first : Bool} {ts : List Tok} {as : List Action} (h : InBlock first ts as)
      (addr : Bytes) :
    SoFar files (.sourceAddr first addr) (ts ++ [.SOURCE, .STRING addr]) as
  | sourcePort {first : Bool} {ts : List Tok} {as : List Action} (h : InBlock first ts as)
      (addr : Bytes) :
    SoFar files (.sourcePort first addr) (ts ++ [.SOURCE, .STRING addr, .PORT]) as
  | hostname {first : Bool} {ts : List Tok} {as : List Action} (h : InBlock first ts as) :
    SoFar files (.hostname first) (ts ++ [.HOSTNAME]) as
  | stylesheet {first : Bool} {ts : List Tok} {as : List Action} (h : InBlock first ts as) :
    SoFar files (.stylesheet first) (ts ++ [.STYLESHEET]) as
  | stylesheetPath {first : Bool} {ts : List Tok} {as : List Action} (h : InBlock first ts as)
      (x : Strings) :
    SoFar files (.stylesheetPath first x.value) (ts ++ .STYLESHEET :: x.tokens) as
  | no {first : Bool} {ts : List Tok} {as : List Action} (h : InBlock first ts as) :
    SoFar files (.no first) (ts ++ [.NO]) as
  | noImage {first : Bool} {ts : List Tok} {as : List Action} (h : InBlock first ts as) :
    SoFar files (.noImage first) (ts ++ [.NO, .IMAGE]) as
  | noNavigation {first : Bool} {ts : List Tok} {as : List Action} (h : InBlock first ts as) :
    SoFar files (.noNavigation first) (ts ++ [.NO, .NAVIGATION]) as
  | line {ts : List Tok} {as : List Action} (x : Stmt) (hts : ts ++ [.char 10] = x.tokens)
    (has : as = x.actions files) : SoFar files .line ts as

/-- A line that goes on, or is complete. -/
def Goes (files : Bytes → Option Bytes) (s : State) (ts : List Tok) (as : List Action) : Prop :=
  SoFar files s ts as ∨ s = .start ∧ ∃ x : Stmt, ts = x.tokens ∧ as = x.actions files

theorem soFar_option {first : Bool} (h : InBlock first ts as)
    (ht : State.option first t = some s') :
    SoFar files s' (ts ++ [t]) as := by
  cases t <;> cases ht
  · exact .hostname h
  · exact .no h
  · exact .source h
  · exact .stylesheet h

theorem Ended.first (h : Ended true ts as) : InBlock false ts as := by
  obtain ⟨ts₀, as₀, o, ⟨host, n, rfl, rfl⟩, rfl, rfl⟩ := h
  refine ⟨⟨host, n, o, 0, []⟩, ?_, rfl⟩
  simp [ProxyTree.opened, newlines]

theorem soFar_ended {first : Bool} (h : InBlock first ts as) (o : OptTree) :
    SoFar files (State.ended first) (ts ++ o.tokens) (as ++ [.option o.opt]) := by
  cases first with
  | true => exact .options (Ended.first ⟨ts, as, o, h, rfl, rfl⟩)
  | false => exact .optionEnd ⟨ts, as, o, h, rfl, rfl⟩

theorem options_step (h : InBlock false ts as) (ht : State.behind true t = some (as', s')) :
    SoFar files s' (ts ++ [t]) (as ++ as') := by
  obtain ⟨x, rfl, rfl⟩ := h
  rw [State.behind] at ht
  split at ht
  · next hnl =>
    cases ht
    obtain ⟨y, hy, hy'⟩ := x.newline
    rw [hnl, List.append_nil]
    exact .options ⟨y, hy.symm, hy'.symm⟩
  · rw [if_pos rfl] at ht
    split at ht
    · next hclose =>
      cases ht
      rw [hclose]
      exact .line (.proxy x) (by simp [Stmt.tokens]) rfl
    · obtain ⟨s₁, hs₁, heq⟩ := Option.map_eq_some_iff.mp ht
      cases heq
      rw [List.append_nil]
      have hin : InBlock false x.opened x.begun := ⟨x, rfl, rfl⟩
      exact soFar_option hin hs₁

theorem behind_step {first : Bool} (h : Ended first ts as)
    (ht : State.behind first t = some (as', s')) :
    SoFar files s' (ts ++ [t]) (as ++ as') := by
  cases first with
  | true => exact options_step h.first ht
  | false =>
    rw [State.behind] at ht
    split at ht
    · next hnl =>
      cases ht
      obtain ⟨ts₀, as₀, o, ⟨x, rfl, rfl⟩, rfl, rfl⟩ := h
      obtain ⟨y, hy, hy'⟩ := x.option o
      rw [hnl, List.append_nil, List.append_assoc]
      exact .options ⟨y, hy.symm, hy'.symm⟩
    · cases ht

/-- An option whose action has waited for this token. -/
theorem late_step {first : Bool} (h : InBlock first ts as) (o : OptTree) {r : List Action × State}
    (ht : State.behind first t = some r) :
    SoFar files r.2 (ts ++ o.tokens ++ [t]) (as ++ .option o.opt :: r.1) := by
  have hstep : SoFar files r.2 (ts ++ o.tokens ++ [t]) (as ++ [.option o.opt] ++ r.1) :=
    behind_step ⟨ts, as, o, h, rfl, rfl⟩ (ht.trans rfl)
  rwa [List.append_assoc as] at hstep

theorem eq_of_only {c d : UInt8} {x r : List Action × State}
    (h : (if c = d then some x else none) = some r) : c = d ∧ x = r := by
  split at h
  · next heq => exact ⟨heq, Option.some.inj h⟩
  · cases h

/-- **One token.** -/
theorem soFar_step (h : SoFar files s ts as) (hstep : s.step files t = some (as', s')) :
    Goes files s' (ts ++ [t]) (as ++ as') := by
  cases h with
  | start =>
    cases t
    case INCLUDE => cases hstep; exact Or.inl .includeFile
    case STRING nam => cases hstep; exact Or.inl (.varset nam)
    case PREFORK => cases hstep; exact Or.inl .prefork
    case CHROOT => cases hstep; exact Or.inl .chroot
    case PROXY => cases hstep; exact Or.inl .proxy
    case char c =>
      obtain ⟨rfl, heq⟩ := eq_of_only (d := 10) (x := ([], .start)) hstep
      cases heq
      exact Or.inr ⟨rfl, .empty, rfl, rfl⟩
    all_goals cases hstep
  | includeFile =>
    cases t
    case STRING s =>
      cases hstep
      have hone : SoFar files _ _ _ := SoFar.includeName ⟨s, []⟩
      rw [Strings.value, List.flatten_nil, List.append_nil] at hone
      exact Or.inl hone
    all_goals cases hstep
  | includeName x =>
    cases t
    case STRING s =>
      cases hstep
      rw [x.value_append, List.cons_append, x.tokens_append]
      exact Or.inl (.includeName _)
    case char c =>
      obtain ⟨rfl, heq⟩ := eq_of_only (d := 10)
        (x := ([.includeFile x.value (files x.value).isSome], .start)) hstep
      cases heq
      exact Or.inr ⟨rfl, .includeFile x, rfl, rfl⟩
    all_goals cases hstep
  | varset nam =>
    cases t
    case char c =>
      obtain ⟨rfl, heq⟩ := eq_of_only (d := 61) (x := ([], .varsetValue nam)) hstep
      cases heq
      exact Or.inl (.varsetValue nam)
    all_goals cases hstep
  | varsetValue nam =>
    cases t
    case STRING val => cases hstep; exact Or.inl (.line (.varset nam val) rfl rfl)
    all_goals cases hstep
  | prefork =>
    cases t
    case NUMBER n => cases hstep; exact Or.inl (.line (.prefork n) rfl rfl)
    all_goals cases hstep
  | chroot =>
    cases t
    case STRING path => cases hstep; exact Or.inl (.line (.chroot path) rfl rfl)
    all_goals cases hstep
  | proxy =>
    cases t
    case STRING host => cases hstep; exact Or.inl (.proxyName host)
    all_goals cases hstep
  | proxyName host =>
    cases t
    case char c =>
      obtain ⟨rfl, heq⟩ := eq_of_only (d := 123) (x := ([], .block)) hstep
      cases heq
      exact Or.inl (.block ⟨host, 0, rfl, rfl⟩)
    all_goals cases hstep
  | block h =>
    change (if t = .char 10 then _ else _) = _ at hstep
    split at hstep
    · next hnl =>
      cases hstep
      obtain ⟨host, n, rfl, rfl⟩ := h
      rw [hnl, List.append_assoc]
      exact Or.inl (.block ⟨host, n + 1, congrArg _ List.replicate_succ'.symm, rfl⟩)
    · obtain ⟨s₁, hs₁, heq⟩ := Option.map_eq_some_iff.mp hstep
      cases heq
      rw [List.append_nil]
      exact Or.inl (soFar_option h hs₁)
  | options h => exact Or.inl (options_step h hstep)
  | optionEnd h => exact Or.inl (behind_step h hstep)
  | source h =>
    cases t
    case STRING addr =>
      cases hstep
      rw [List.append_assoc, List.append_nil]
      exact Or.inl (.sourceAddr h addr)
    all_goals cases hstep
  | @sourceAddr first _ _ h addr =>
    change (if t = .PORT then _ else _) = _ at hstep
    split at hstep
    · next hport =>
      cases hstep
      rw [hport, List.append_assoc, List.append_nil]
      exact Or.inl (.sourcePort h addr)
    · obtain ⟨r, hr, heq⟩ := Option.map_eq_some_iff.mp hstep
      cases heq
      exact Or.inl (late_step h (.source addr none) hr)
  | sourcePort h addr =>
    cases t
    case NUMBER n =>
      cases hstep
      rw [List.append_assoc]
      exact Or.inl (soFar_ended h (.source addr (some (.number n))))
    case STRING s =>
      cases hstep
      rw [List.append_assoc]
      exact Or.inl (soFar_ended h (.source addr (some (.string s))))
    all_goals cases hstep
  | hostname h =>
    cases t
    case STRING name =>
      cases hstep
      rw [List.append_assoc]
      exact Or.inl (soFar_ended h (.hostname name))
    all_goals cases hstep
  | @stylesheet first _ _ h =>
    cases t
    case STRING s =>
      cases hstep
      have hone : SoFar files _ _ _ := SoFar.stylesheetPath h ⟨s, []⟩
      rw [Strings.value, List.flatten_nil, List.append_nil] at hone
      rw [List.append_assoc, List.append_nil]
      exact Or.inl hone
    all_goals cases hstep
  | @stylesheetPath first _ _ h x =>
    cases t
    case STRING s =>
      cases hstep
      rw [x.value_append, List.append_assoc, List.cons_append, x.tokens_append, List.append_nil]
      exact Or.inl (.stylesheetPath h _)
    all_goals
      obtain ⟨r, hr, heq⟩ := Option.map_eq_some_iff.mp hstep
      cases heq
      exact Or.inl (late_step h (.stylesheet x) hr)
  | no h =>
    cases t
    case FOOTER => cases hstep; rw [List.append_assoc]; exact Or.inl (soFar_ended h .noFooter)
    case IMAGE => cases hstep; rw [List.append_assoc, List.append_nil]; exact Or.inl (.noImage h)
    case NAVIGATION =>
      cases hstep; rw [List.append_assoc, List.append_nil]; exact Or.inl (.noNavigation h)
    case TLS => cases hstep; rw [List.append_assoc]; exact Or.inl (soFar_ended h .noTls)
    all_goals cases hstep
  | noImage h =>
    cases t
    case PREVIEW =>
      cases hstep; rw [List.append_assoc]; exact Or.inl (soFar_ended h .noImagePreview)
    all_goals cases hstep
  | noNavigation h =>
    cases t
    case BAR => cases hstep; rw [List.append_assoc]; exact Or.inl (soFar_ended h .noNavigationBar)
    all_goals cases hstep
  | line x hts has =>
    cases t
    case char c =>
      obtain ⟨rfl, heq⟩ := eq_of_only (d := 10) (x := ([], .start)) hstep
      cases heq
      rw [List.append_nil]
      exact Or.inr ⟨rfl, x, hts, has⟩
    all_goals cases hstep

/-- **What takes the parser back to the start of a line is lines.** -/
theorem lines_of_drives (h : Drives files s ts as .start) {ts₀ : List Tok} {as₀ : List Action}
    (h₀ : SoFar files s ts₀ as₀) :
    ∃ xs : List Stmt, ts₀ ++ ts = xs.flatMap Stmt.tokens ∧
      as₀ ++ as = xs.flatMap (Stmt.actions files) := by
  generalize hend : State.start = e at h
  induction h generalizing ts₀ as₀ with
  | nil =>
    subst hend
    cases h₀
    exact ⟨[], rfl, rfl⟩
  | @cons s s₁ _ t ts as as' hstep hrest ih =>
    rcases soFar_step h₀ hstep with hgoes | ⟨rfl, x, hx, hx'⟩
    · obtain ⟨xs, hts, has⟩ := ih hgoes hend
      refine ⟨xs, ?_, ?_⟩
      · rw [← hts, List.append_assoc]
        rfl
      · rw [← has, List.append_assoc]
    · obtain ⟨xs, hts, has⟩ := ih .start hend
      rw [List.nil_append] at hts has
      refine ⟨x :: xs, ?_, ?_⟩
      · rw [List.flatMap_cons, ← hx, ← hts, List.append_assoc]
        rfl
      · rw [List.flatMap_cons, ← hx', ← has, List.append_assoc]

theorem Strings.noNul (x : Strings) (h : ∀ s, .STRING s ∈ x.tokens → 0 ∉ s) : 0 ∉ x.value := by
  intro hzero
  rcases List.mem_append.mp hzero with hzero | hzero
  · exact h x.first (by simp [Strings.tokens]) hzero
  · obtain ⟨s, hs, hzero⟩ := List.mem_flatten.mp hzero
    exact h s (by simp [Strings.tokens, hs]) hzero

/-- The strings of a line are those of its tokens. -/
theorem OptTree.noNul (o : OptTree) (h : ∀ s, .STRING s ∈ o.tokens → 0 ∉ s) :
    (Action.option o.opt).NoNul := by
  cases o with
  | source addr port =>
    have haddr : 0 ∉ addr := h addr (by cases port <;> simp [OptTree.tokens])
    rcases port with _ | ⟨n⟩ | ⟨s⟩
    · exact List.forall_mem_singleton.mpr haddr
    · exact List.forall_mem_singleton.mpr haddr
    · have hport : 0 ∉ s := h s (by simp [OptTree.tokens, PortTok.token])
      exact List.forall_mem_cons.mpr ⟨haddr, List.forall_mem_singleton.mpr hport⟩
  | hostname name => exact List.forall_mem_singleton.mpr (h name (by simp [OptTree.tokens]))
  | stylesheet path =>
    refine List.forall_mem_singleton.mpr (path.noNul fun s hs => h s ?_)
    simp [OptTree.tokens, hs]
  | noFooter => exact List.forall_mem_nil _
  | noImagePreview => exact List.forall_mem_nil _
  | noNavigationBar => exact List.forall_mem_nil _
  | noTls => exact List.forall_mem_nil _

/-- The actions of a block: its host, its options, its end. -/
theorem mem_block {x : ProxyTree} {a : Action} (ha : a ∈ (Stmt.proxy x).actions files) :
    a = .proxy x.host ∨ (∃ o, (o = x.first ∨ ∃ n, (o, n) ∈ x.more) ∧ a = .option o.opt) ∨
      a = .close := by
  simp only [Stmt.actions, ProxyTree.begun, List.cons_append, List.mem_cons, List.mem_append,
    List.mem_map, List.not_mem_nil, or_false] at ha
  rcases ha with rfl | ⟨o, ho, rfl⟩ | rfl
  · exact Or.inl rfl
  · refine Or.inr (Or.inl ⟨o, ?_, rfl⟩)
    rcases ho with rfl | ⟨⟨o, n⟩, hmem, rfl⟩
    · exact Or.inl rfl
    · exact Or.inr ⟨n, hmem⟩
  · exact Or.inr (Or.inr rfl)

theorem Stmt.noNul (x : Stmt) (h : ∀ s, .STRING s ∈ x.tokens → 0 ∉ s) :
    ∀ a ∈ x.actions files, a.NoNul := by
  intro a ha
  cases x with
  | includeFile name =>
    rw [List.mem_singleton.mp ha]
    refine List.forall_mem_singleton.mpr (name.noNul fun s hs => h s ?_)
    simp [Stmt.tokens, hs]
  | empty => cases ha
  | varset nam val =>
    rw [List.mem_singleton.mp ha]
    have hnam : 0 ∉ nam := h nam (by simp [Stmt.tokens])
    have hval : 0 ∉ val := h val (by simp [Stmt.tokens])
    exact List.forall_mem_cons.mpr ⟨hnam, List.forall_mem_singleton.mpr hval⟩
  | prefork n =>
    rw [List.mem_singleton.mp ha]
    exact List.forall_mem_nil _
  | chroot path =>
    rw [List.mem_singleton.mp ha]
    exact List.forall_mem_singleton.mpr (h path (by simp [Stmt.tokens]))
  | proxy t =>
    rcases mem_block ha with rfl | ⟨o, ho, rfl⟩ | rfl
    · exact List.forall_mem_singleton.mpr (h t.host (by simp [Stmt.tokens, ProxyTree.opened]))
    · refine o.noNul fun s hs => h s ?_
      rcases ho with rfl | ⟨n, hmem⟩
      · simp [Stmt.tokens, ProxyTree.opened, hs]
      · have hin : Tok.STRING s ∈ t.more.flatMap fun o => o.1.tokens ++ newlines (o.2 + 1) :=
          List.mem_flatMap.mpr ⟨(o, n), hmem, List.mem_append_left _ hs⟩
        simp only [Stmt.tokens, ProxyTree.opened, List.mem_append]
        exact Or.inl (Or.inr hin)
    · exact List.forall_mem_nil _

theorem Stmt.ofParser (x : Stmt) : ∀ a ∈ x.actions files, a.ofLexer = false := by
  intro a ha
  cases x with
  | empty => cases ha
  | proxy t =>
    rcases mem_block ha with rfl | ⟨o, -, rfl⟩ | rfl <;> rfl
  | _ =>
    rw [List.mem_singleton.mp ha]
    rfl

end Lines

/-! ## Whole texts -/

section Texts

variable {lim : Limits} {serv : Bytes → Bytes → Option UInt16} {files : Bytes → Option Bytes}

theorem push_parse (a : Action) (l : Lexer) : (l.push files a).parse = l.parse := by
  cases a with
  | includeFile name opened =>
    rw [Lexer.push]
    cases files name <;> rfl
  | _ => rfl

theorem acts_of_lexer {as : List Action} {l l' : Lexer}
    (h : as.foldlM (Lexer.act lim serv files) l = some l') :
    acts lim serv l.parse as = some l'.parse := by
  induction as generalizing l with
  | nil =>
    cases h
    rfl
  | cons a as ih =>
    rw [List.foldlM_cons] at h
    obtain ⟨l₁, hl₁, hrest⟩ := Option.bind_eq_some_iff.mp h
    rw [Lexer.act] at hl₁
    split at hl₁
    · cases hl₁
    · obtain ⟨p, hp, rfl⟩ := Option.map_eq_some_iff.mp hl₁
      rw [acts_cons, hp]
      have hnext := ih hrest
      rwa [push_parse] at hnext

/-- A whole parse: the tokens, the actions of the parser, and all actions. -/
theorem yyparse_drives {n : Nat} {s : State} {l l' : Lexer}
    (h : yyparse lim serv files n s l = some l') :
    ∃ ts as all, Drives files s ts as .start ∧ (∀ x, .STRING x ∈ ts → 0 ∉ x) ∧
      all.filter (!·.ofLexer) = as.filter (!·.ofLexer) ∧ (∀ a ∈ all, a.NoNul ∨ a ∈ as) ∧
      acts lim serv l.parse all = some l'.parse := by
  induction n generalizing s l with
  | zero => cases h
  | succ n ih =>
    rw [yyparse] at h
    obtain ⟨⟨t, l₁⟩, hlex, h⟩ := Option.bind_eq_some_iff.mp h
    have hlexed : Lexer.Lexed lim serv l.parse (t, l₁) := Lexer.lexed_yylex hlex
    obtain ⟨⟨before, hbefore, hl₁⟩, hstring⟩ := hlexed
    dsimp only at h hl₁ hstring
    split at h
    · split at h
      · next hstart =>
        cases h
        rw [hstart]
        refine ⟨[], [], before, .nil, by simp, ?_, fun a ha => Or.inl (hbefore a ha).2, hl₁⟩
        simpa using fun a ha => (hbefore a ha).1
      · cases h
    · obtain ⟨⟨as₁, s₁⟩, hstep, h⟩ := Option.bind_eq_some_iff.mp h
      obtain ⟨l₂, hact, h⟩ := Option.bind_eq_some_iff.mp h
      obtain ⟨ts, as, all, hdrives, hclean, hfilter, hmem, hacts⟩ := ih h
      refine ⟨t :: ts, as₁ ++ as, before ++ (as₁ ++ all), .cons hstep hdrives, ?_, ?_, ?_, ?_⟩
      · intro x hx
        rcases List.mem_cons.mp hx with hx | hx
        · exact hstring x hx.symm
        · exact hclean x hx
      · have hnone : before.filter (!·.ofLexer) = [] := by
          simpa using fun a ha => (hbefore a ha).1
        rw [List.filter_append, hnone, List.nil_append, List.filter_append, List.filter_append,
          hfilter]
      · intro a ha
        rcases List.mem_append.mp ha with ha | ha
        · exact Or.inl (hbefore a ha).2
        · rcases List.mem_append.mp ha with ha | ha
          · exact Or.inr (List.mem_append_left _ ha)
          · exact (hmem a ha).imp_right (List.mem_append_right _)
      · rw [acts_append, hl₁]
        change acts lim serv l₁.parse _ = _
        rw [acts_append, acts_of_lexer hact]
        exact hacts

end Texts

end Galileo.Conf
