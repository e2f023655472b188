import Galileo.Proof.ConfLexer

/-!
# From a configuration text to its actions

The parser is driven by the tokens of a line through the states of `Model/ConfText` and performs the
actions of the line's tree (`Stmt.drives`). Two options have their action performed only when the
next token has been read; `option_drives` says that this makes no difference to what is behind them.
With `Proof/ConfLexer` this gives what `parse_config` does with a text (`text_performed`).
-/

set_option autoImplicit false

namespace Galileo.Conf

open Lib

/-! ## Keywords -/

/-- **Binary search finds the keywords**, and nothing else: the table is sorted. -/
theorem lookup_eq_find (s : Bytes) :
    lookup s = ((keywords.find? fun e => compare s e.1 == .eq).map Prod.snd).getD (.STRING s) := by
  have hsorted : keywords.Pairwise fun a b => compare a.1 b.1 = .lt := by decide
  have hfind : bsearch (kwCmp s) keywords = keywords.find? fun e => compare s e.1 == .eq :=
    bsearch_eq_find? (ascending_of_sorted Prod.fst hsorted s)
  rw [lookup, hfind]

/-! ## The states of the parser -/

section Grammar

variable {files : Bytes → Option Bytes} {s s' s'' : State} {t : Tok} {ts ts' : List Tok}
  {as as' : List Action}

/-- These tokens take the parser from one state to another, with these actions. -/
inductive Drives (files : Bytes → Option Bytes) : State → List Tok → List Action → State → Prop
  | nil {s : State} : Drives files s [] [] s
  | cons {s s' s'' : State} {t : Tok} {ts : List Tok} {as as' : List Action}
    (hstep : s.step files t = some (as, s')) (hrest : Drives files s' ts as' s'') :
    Drives files s (t :: ts) (as ++ as') s''

theorem Drives.append (h : Drives files s ts as s') (h' : Drives files s' ts' as' s'') :
    Drives files s (ts ++ ts') (as ++ as') s'' := by
  induction h with
  | nil => exact h'
  | cons hstep _ ih =>
    rw [List.cons_append, List.append_assoc]
    exact .cons hstep (ih h')

/-- A token for which nothing is done. -/
theorem Drives.silent (h : s.step files t = some ([], s')) (hrest : Drives files s' ts as s'') :
    Drives files s (t :: ts) as s'' := .cons h hrest

theorem Drives.act {a : Action} (h : s.step files t = some ([a], s'))
    (hrest : Drives files s' ts as s'') :
    Drives files s (t :: ts) (a :: as) s'' := .cons h hrest

theorem Drives.one (h : s.step files t = some (as, s')) : Drives files s [t] as s' := by
  have hone := Drives.cons h .nil
  rwa [List.append_nil] at hone

theorem drives_newlines (hs : s.step files (.char 10) = some ([], s)) (n : Nat) :
    Drives files s (newlines n) [] s := by
  induction n with
  | zero => exact .nil
  | succ n ih => exact .cons hs ih

/-- A `string` is collected in the state. -/
theorem drives_strings {f : Bytes → State}
    (hf : ∀ a s, (f a).step files (.STRING s) = some ([], f (a ++ s))) (first : Bytes)
    (more : List Bytes) :
    Drives files (f first) (more.map .STRING) [] (f (first ++ more.flatten)) := by
  induction more generalizing first with
  | nil =>
    rw [List.flatten_nil, List.append_nil]
    exact .nil
  | cons s more ih =>
    rw [List.flatten_cons, ← List.append_assoc]
    exact .cons (hf first s) (ih (first ++ s))

/-- The states in which an option may begin. -/
def Expects (files : Bytes → Option Bytes) (s : State) (first : Bool) : Prop :=
  ∀ t s', State.option first t = some s' → s.step files t = some ([], s')

theorem expects_block : Expects files .block true := by
  intro t s' h
  cases t <;> cases h <;> rfl

theorem expects_options : Expects files .options false := by
  intro t s' h
  cases t <;> cases h <;> rfl

theorem step_ended (first : Bool) (t : Tok) :
    (State.ended first).step files t = State.behind first t := by
  cases first <;> rfl

/-- **An option is performed when it is complete**, or when the next token has been read: what is
behind it is the same. -/
theorem option_drives {first : Bool} (hs : Expects files s first) (o : OptTree)
    (h : Drives files (State.ended first) ts as s'') (hne : ts ≠ []) :
    Drives files s (o.tokens ++ ts) (.option o.opt :: as) s'' := by
  -- an option that waits for the next token
  have hlate : ∀ {s₁ : State} {x : Action}, (∀ t r, State.behind first t = some r →
      s₁.step files t = some (x :: r.1, r.2)) → Drives files s₁ ts (x :: as) s'' := by
    intro s₁ x hstep
    cases h with
    | nil => exact absurd rfl hne
    | cons hfirst hrest =>
      rw [step_ended] at hfirst
      exact .cons (hstep _ _ hfirst) hrest
  cases o with
  | source addr port =>
    cases port with
    | none =>
      refine .silent (hs .SOURCE _ rfl) (.silent rfl (hlate fun t r ht => ?_))
      have hport : t ≠ .PORT := by
        rintro rfl
        cases first <;> cases ht
      change (if t = .PORT then _ else _) = _
      rw [if_neg hport, ht]
      rfl
    | some port =>
      cases port with
      | number n => exact .silent (hs .SOURCE _ rfl) (.silent rfl (.silent rfl (.act rfl h)))
      | string s => exact .silent (hs .SOURCE _ rfl) (.silent rfl (.silent rfl (.act rfl h)))
  | hostname name => exact .silent (hs .HOSTNAME _ rfl) (.act rfl h)
  | stylesheet path =>
    refine .silent (hs .STYLESHEET _ rfl) (.silent rfl ?_)
    refine (drives_strings (f := State.stylesheetPath first)
      (fun _ _ => rfl) path.first path.more).append
      (hlate fun t r ht => ?_)
    cases t
    case STRING s => cases first <;> cases ht
    all_goals
      change Option.map _ _ = _
      rw [ht]
      rfl
  | noFooter => exact .silent (hs .NO _ rfl) (.act rfl h)
  | noImagePreview => exact .silent (hs .NO _ rfl) (.silent rfl (.act rfl h))
  | noNavigationBar => exact .silent (hs .NO _ rfl) (.silent rfl (.act rfl h))
  | noTls => exact .silent (hs .NO _ rfl) (.act rfl h)

/-- The options behind the first, to the end of the line. -/
theorem options_drive (more : List (OptTree × Nat)) :
    Drives files .options
      ((more.flatMap fun o => o.1.tokens ++ newlines (o.2 + 1)) ++ [.char 125, .char 10])
      ((more.map fun o => .option o.1.opt) ++ [.close]) .start := by
  induction more with
  | nil => exact .act rfl (.silent rfl .nil)
  | cons o more ih =>
    rw [List.flatMap_cons, List.append_assoc, List.append_assoc]
    refine option_drives expects_options o.1 ?_ (List.cons_ne_nil _ _)
    exact .silent rfl ((drives_newlines rfl o.2).append ih)

theorem proxy_drives (t : ProxyTree) :
    Drives files .start (t.opened ++ [.char 125, .char 10]) (t.begun ++ [.close]) .start := by
  have hnl : Drives files .options (newlines t.firstnl ++ ((t.more.flatMap fun o =>
      o.1.tokens ++ newlines (o.2 + 1)) ++ [.char 125, .char 10]))
      ((t.more.map fun o => .option o.1.opt) ++ [.close]) .start := 
    (drives_newlines rfl t.firstnl).append (options_drive t.more)
  have hfirst := option_drives expects_block t.first hnl (by simp)
  have hblock : Drives files .block (newlines t.optnl ++ (t.first.tokens ++ (newlines t.firstnl ++
      ((t.more.flatMap fun o => o.1.tokens ++ newlines (o.2 + 1)) ++ [.char 125, .char 10]))))
      (.option t.first.opt :: ((t.more.map fun o => .option o.1.opt) ++ [.close])) .start :=
    (drives_newlines rfl t.optnl).append hfirst
  have hline : Drives files .start _ (.proxy t.host :: .option t.first.opt ::
      ((t.more.map fun o => .option o.1.opt) ++ [.close])) .start :=
    .silent (t := .PROXY) rfl (.act (t := .STRING t.host) rfl (.silent (t := .char 123) rfl hblock))
  simpa only [ProxyTree.opened, ProxyTree.begun, List.append_assoc, List.cons_append,
    List.nil_append, List.map_cons, List.map_map, Function.comp_def] using hline

/-- **The tokens of a line perform its actions.** -/
theorem Stmt.drives (x : Stmt) : Drives files .start x.tokens (x.actions files) .start := by
  cases x with
  | includeFile name =>
    refine .silent rfl (.silent rfl ?_)
    exact (drives_strings (f := State.includeName) (fun _ _ => rfl) name.first name.more).append
      (.one rfl)
  | empty => exact .silent rfl .nil
  | varset nam val => exact .silent rfl (.silent rfl (.act rfl (.silent rfl .nil)))
  | prefork n => exact .silent rfl (.act rfl (.silent rfl .nil))
  | chroot path => exact .silent rfl (.act rfl (.silent rfl .nil))
  | proxy t => exact proxy_drives t

theorem stmts_drive (xs : List Stmt) :
    Drives files .start (xs.flatMap Stmt.tokens) (xs.flatMap (Stmt.actions files)) .start := by
  induction xs with
  | nil => exact .nil
  | cons x xs ih => exact x.drives.append ih

end Grammar

/-! ## The parser and the lexer -/

theorem step_eof (files : Bytes → Option Bytes) (s : State) : s.step files .eof = none := by
  cases s with
  | stylesheetPath first path => cases first <;> rfl
  | sourceAddr first addr => cases first <;> rfl
  | _ => rfl

section Parser

variable {lim : Limits} {serv : Bytes → Bytes → Option UInt16} {files : Bytes → Option Bytes}

theorem acts_cons (p : Parse) (a : Action) (as : List Action) :
    acts lim serv p (a :: as) = (act lim serv p a).bind fun p => acts lim serv p as :=
  List.foldlM_cons ..

theorem acts_append (p : Parse) (as as' : List Action) :
    acts lim serv p (as ++ as') = (acts lim serv p as).bind fun p => acts lim serv p as' :=
  List.foldlM_append ..

/-- Actions that the parser does not leave its way for: they do not end in `YYERROR`, and open no
file. -/
structure Action.Plain (lim : Limits) (serv : Bytes → Bytes → Option UInt16) (a : Action) :
    Prop where
  raises : a.raises lim serv = false
  opens : ∀ name opened, a ≠ .includeFile name opened

/-- The same lexer, with another state of the parse. -/
def Lexer.parsed (l : Lexer) (p : Parse) : Lexer := { l with parse := p }

theorem Lexer.act_plain {a : Action} (ha : a.Plain lim serv) (b : Lexer) (u v : Bytes) :
    (b.reading u v).act lim serv files a =
      (Conf.act lim serv b.parse a).map fun p => (b.parsed p).reading u v := by
  have hpush : ∀ l : Lexer, l.push files a = l := by
    intro l
    cases a with
    | includeFile name opened => exact absurd rfl (ha.opens name opened)
    | _ => rfl
  rw [Lexer.act, ha.raises, if_neg Bool.noConfusion]
  refine congrArg (fun f => Option.map f _) (funext fun p => ?_)
  exact hpush _

theorem Lexer.acts_plain {as : List Action} (has : ∀ a ∈ as, a.Plain lim serv) (b : Lexer)
    (u v : Bytes) :
    as.foldlM (Lexer.act lim serv files) (b.reading u v) =
      (acts lim serv b.parse as).map fun p => (b.parsed p).reading u v := by
  induction as generalizing b with
  | nil => rfl
  | cons a as ih =>
    rw [List.foldlM_cons, act_plain (has a List.mem_cons_self), acts_cons]
    cases hact : Conf.act lim serv b.parse a with
    | none => rfl
    | some p => exact ih (fun x hx => has x (List.mem_cons_of_mem _ hx)) (b.parsed p)

/-- **The parser does for a text what its tokens say**, and is then at its end. -/
theorem yyparse_spells {ts : List Tok} {text : Bytes} (hspell : Spells ts text) {s s' : State}
    {as : List Action} (hdrives : Drives files s ts as s') (has : ∀ a ∈ as, a.Plain lim serv)
    {b l : Lexer} (hat : b.At l text) {p : Parse} (hacts : acts lim serv b.parse as = some p)
    (n : Nat) :
    ∃ l', (b.parsed p).At l' [] ∧
      yyparse lim serv files (n + ts.length) s l = yyparse lim serv files n s' l' := by
  induction hspell generalizing s as b l with
  | nil hblanks =>
    cases hdrives
    obtain rfl : b.parse = p := Option.some.inj hacts
    exact ⟨l, hat.congr (List.dropWhile_eq_nil_iff.mpr hblanks), rfl⟩
  | @cons blanks w rest t ts hblanks ht hts ih =>
    cases hdrives with
    | @cons _ s₁ _ _ _ as₁ as₂ hstep hrest =>
      have hat' : b.At l (w ++ rest) := hat.congr (List.dropWhile_append_of_pos hblanks)
      obtain ⟨_, hlex, u, v, hu, huv, rfl⟩ := Lexer.yylex_writes ht hat'
      rw [acts_append] at hacts
      obtain ⟨p₁, hp₁, hp⟩ := Option.bind_eq_some_iff.mp hacts
      have hact : as₁.foldlM (Lexer.act lim serv files) (b.reading u v)
          = some ((b.parsed p₁).reading u v) := by
        rw [Lexer.acts_plain (fun a ha => has a (List.mem_append_left _ ha)), hp₁]
        rfl
      have hnot : t ≠ .eof := by
        rintro rfl
        rw [step_eof] at hstep
        cases hstep
      obtain ⟨l', hl', hyy⟩ := ih hrest (fun a ha => has a (List.mem_append_right _ ha))
        (b := b.parsed p₁) ⟨u, v, hu, huv, rfl⟩ hp
      refine ⟨l', hl', ?_⟩
      rw [List.length_cons, ← Nat.add_assoc, yyparse, hlex]
      change (if t = .eof then _ else _) = _
      rw [if_neg hnot, hstep]
      change (as₁.foldlM (Lexer.act lim serv files) (b.reading u v) >>= fun l =>
        yyparse lim serv files (n + ts.length) s₁ l) = _
      rw [hact]
      exact hyy

variable (lim serv files) in
/-- At the end of the text the lexer makes up a newline, and the parser has finished. -/
theorem yyparse_end {b l : Lexer} (hat : b.At l []) (heof : b.file.eofReached = false)
    (houter : b.outer = []) (n : Nat) : yyparse lim serv files (n + 2) .start l = some b.atEof := by
  rw [yyparse, Lexer.yylex_end hat heof]
  change yyparse lim serv files (n + 1) .start b.atEof = _
  rw [yyparse, Lexer.yylex_atEof houter]
  rfl

/-! ## Lines -/

variable (lim serv) in
/-- In a block there is always a block to put an option into. -/
theorem acts_options (os : List Opt) {p : Parse} {pr : ProxyConfig} (hpr : p.pr = some pr) :
    ∃ p' pr', acts lim serv p (os.map .option) = some p' ∧ p'.pr = some pr' := by
  induction os generalizing p pr with
  | nil => exact ⟨p, pr, rfl, hpr⟩
  | cons o os ih =>
    have hkept : ∀ (msgs : List Bytes) (q : Parse), (q.yyerrors msgs).pr = q.pr := by
      intro msgs
      induction msgs with
      | nil => intro q; rfl
      | cons msg msgs ihm => intro q; exact ihm (q.yyerror msg)
    obtain ⟨p', pr', hp', hpr'⟩ :=
      ih (p := { p with pr := some (o.act lim serv pr).1 }.yyerrors (o.act lim serv pr).2)
      (hkept _ _)
    refine ⟨p', pr', ?_, hpr'⟩
    rw [List.map_cons, acts_cons, act, hpr]
    exact hp'

theorem acts_stmt (x : Stmt) (hplain : ∀ a ∈ x.actions files, a.Plain lim serv) (p : Parse) :
    ∃ p', acts lim serv p (x.actions files) = some p' := by
  cases x with
  | includeFile name => exact ⟨_, rfl⟩
  | empty => exact ⟨_, rfl⟩
  | varset nam val => exact ⟨_, rfl⟩
  | prefork n => exact ⟨_, rfl⟩
  | chroot path => exact ⟨_, rfl⟩
  | proxy t =>
    have hlong : ¬t.host.length ≥ lim.hostNameMax + 1 := by
      have hraises := (hplain (.proxy t.host) List.mem_cons_self).raises
      simpa [Action.raises] using hraises
    obtain ⟨p', pr', hp', hpr'⟩ := acts_options lim serv
      ((t.first :: t.more.map Prod.fst).map OptTree.opt)
      (p := { p with pr := some { proxyConfigZero with host := t.host } }) rfl
    refine ⟨closeBlock pr' p', ?_⟩
    have hopen : act lim serv p (.proxy t.host)
        = some { p with pr := some { proxyConfigZero with host := t.host } } := by
      rw [act, if_neg hlong]
    have hclose : act lim serv p' .close = some (closeBlock pr' p') := by
      rw [act, hpr']
      rfl
    simp only [List.map_map, Function.comp_def] at hp'
    rw [Stmt.actions, ProxyTree.begun, List.cons_append, acts_cons, hopen]
    change acts lim serv _ _ = _
    rw [acts_append, hp']
    change acts lim serv p' [.close] = _
    rw [acts_cons, hclose]
    rfl

theorem acts_stmts (xs : List Stmt)
    (hplain : ∀ a ∈ xs.flatMap (Stmt.actions files), a.Plain lim serv) (p : Parse) : ∃ p',
    acts lim serv p (xs.flatMap (Stmt.actions files)) = some p' := by
  induction xs generalizing p with
  | nil => exact ⟨p, rfl⟩
  | cons x xs ih =>
    obtain ⟨p₁, hp₁⟩ := acts_stmt x (fun a ha => hplain a (List.mem_append_left _ ha)) p
    obtain ⟨p₂, hp₂⟩ := ih (fun a ha => hplain a (List.mem_append_right _ ha)) p₁
    refine ⟨p₂, ?_⟩
    rw [List.flatMap_cons, acts_append, hp₁]
    exact hp₂

/-- **A text is parsed as it is written.** For every list of lines and every text that spells their
tokens, with whatever blanks, quotes and comments: `parse_config` performs the actions of the lines,
in their order, and nothing else. -/
theorem text_performed {filename text : Bytes} (hfile : files filename = some text) {xs : List Stmt}
    (hspell : Spells (xs.flatMap Stmt.tokens) text)
    (hplain : ∀ a ∈ xs.flatMap (Stmt.actions files), a.Plain lim serv) (conf : Config)
    (symhead : List Sym) {n : Nat} (hn : (xs.flatMap Stmt.tokens).length + 2 ≤ n) :
    ∃ r, parseText lim serv files n filename conf symhead = some r ∧
      parseConfig lim serv filename true (xs.flatMap (Stmt.actions files)) conf symhead
        = some r := by
  obtain ⟨n, rfl⟩ := Nat.exists_eq_add_of_le hn
  rw [parseConfig, parseText]
  dsimp only
  by_cases hlong : filename.length ≥ lim.pathMax
  · rw [if_pos hlong, if_pos hlong]
    exact ⟨_, rfl, rfl⟩
  · rw [if_neg hlong, if_neg hlong, hfile]
    dsimp only
    rw [if_neg (by decide)]
    obtain ⟨p, hacts⟩ := acts_stmts xs hplain
      ⟨{ conf with scConffile := strlcpy lim.pathMax filename }, none, 0, [], symhead, []⟩
    obtain ⟨l', hat, hyy⟩ := yyparse_spells (b := ⟨⟨[], text, false⟩, [], false,
      ⟨{ conf with scConffile := strlcpy lim.pathMax filename }, none, 0, [], symhead, []⟩⟩)
      hspell (stmts_drive xs) hplain (Lexer.at_reading _ text) hacts (n + 2)
    have hend := yyparse_end lim serv files hat rfl rfl n
    have hfuel : (xs.flatMap Stmt.tokens).length + 2 + n
        = n + 2 + (xs.flatMap Stmt.tokens).length := by
      omega
    rw [hfuel, hacts]
    rw [← hyy] at hend
    exact ⟨_, (congrArg _ hend).trans rfl, rfl⟩

/-- A word in front of a blank. -/
theorem writes_word {w rest : Bytes} {t : Tok} (ht : lookup w = t)
    (hbegins : (w.head?.any fun c => beginsWord c && !isdigit c) = true)
    (hinside : ∀ d ∈ w.tail, allowedInString d = true ∧ d ≠ 92) (hlen : w.length < bufSize) :
    Writes t w (32 :: rest) := by
  cases w with
  | nil => cases hbegins
  | cons c cs =>
    obtain ⟨hword, hdigit⟩ := Bool.and_eq_true_iff.mp hbegins
    rw [← ht]
    refine .word ⟨hword, hinside, fun h => ?_⟩ hlen rfl
    rw [h] at hdigit
    cases hdigit

/-- `proxy h {source 'a b' port 1966}` and a comment. -/
def oneBlock : Bytes :=
  lit "proxy"
    ++ (32 ::
    (lit "h" ++ (32 :: 123 :: (lit "source" ++ (32 :: (lit "'a b'" ++ (32 :: (lit "port" ++
    (32 :: (lit "1966" ++ (125 :: lit "# x\n")))))))))))

def oneBlockTree : Stmt := .proxy ⟨lit "h", 0, .source (lit "a b") (some (.number 1966)), 0, []⟩

theorem oneBlock_spells : Spells ([oneBlockTree].flatMap Stmt.tokens) oneBlock := by
  have hnone : ∀ c ∈ ([] : Bytes), isblank c = true := by decide +kernel
  have hblank : ∀ c ∈ ([32] : Bytes), isblank c = true := by decide +kernel
  refine @Spells.cons [] (lit "proxy") _ .PROXY _ hnone
    (writes_word (by decide) (by decide) (by decide +kernel) (by decide)) ?_
  refine @Spells.cons [32] (lit "h") _ (.STRING (lit "h")) _ hblank
    (writes_word (by decide) (by decide) (by decide +kernel) (by decide)) ?_
  refine @Spells.cons [32] [123] _ (.char 123) _ hblank (.sign (by decide)) ?_
  refine @Spells.cons [] (lit "source") _ .SOURCE _ hnone
    (writes_word (by decide) (by decide) (by decide +kernel) (by decide)) ?_
  refine @Spells.cons [32] (lit "'a b'") _ (.STRING (lit "a b")) _ hblank
    (.quoted (Or.inr rfl) (by decide) (by unfold Unmarked; decide +kernel) (by decide)) ?_
  refine @Spells.cons [32] (lit "port") _ .PORT _ hblank
    (writes_word (by decide) (by decide) (by decide +kernel) (by decide)) ?_
  refine @Spells.cons [32] (lit "1966") _ (.NUMBER 1966) _ hblank
    (.number (Or.inr (by decide)) (by decide +kernel) (by decide) (by decide) (by decide)) ?_
  refine @Spells.cons [] [125] _ (.char 125) _ hnone (.sign (by decide)) ?_
  exact @Spells.cons [] (lit "# x\n") [] (.char 10) _ hnone
    (.comment (s := lit " x") (by decide +kernel)
    (by unfold Unmarked; decide +kernel)) (.nil hnone)

theorem oneBlock_performed :
    let lim : Limits := ⟨1024, 255, by decide⟩
    let files : Bytes → Option Bytes := fun _ => some oneBlock
    let conf : Config := ⟨[], proxyNumproc, [], []⟩
    ∃ r, parseText lim (fun _ _ => none) files 11 (lit "f") conf [] = some r ∧
      parseConfig lim (fun _ _ => none) (lit "f") true
        ([oneBlockTree].flatMap (Stmt.actions files)) conf []
        = some r := by
  intro lim files conf
  have hfile : files (lit "f") = some oneBlock := rfl
  refine text_performed hfile oneBlock_spells (fun a ha => ?_) conf [] (n := 11) (by decide)
  have hactions : [oneBlockTree].flatMap (Stmt.actions files)
      = [.proxy (lit "h"), .option (.source (lit "a b") (some (.number 1966))), .close] := rfl
  rw [hactions] at ha
  simp only [List.mem_cons, List.not_mem_nil, or_false] at ha
  rcases ha with rfl | rfl | rfl <;> exact ⟨rfl, fun _ _ => Action.noConfusion⟩

end Parser

end Galileo.Conf
