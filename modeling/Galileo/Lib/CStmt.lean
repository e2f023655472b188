import Mathlib.Data.List.Basic

/-!
# Statements with `goto`

The part of C that code generators print: simple statements, `if` with and without `else`, loops,
compound statements, a `goto` to the one label of the function, and `return`. What a simple
statement or a condition is, and what is between the parentheses of a loop, is left open.

There are two forms. Code is printed as a list of tokens, in which nothing but braces says where a
statement ends; `parseStmt` and `parseItems` read it as a C compiler does, and an `else` belongs to
the nearest `if`. `Stmt` is what they make of it, and `exec` runs that.

A loop that does not end is run for a number of rounds. So what a program does is what it does
within `n` rounds of its loops, for every `n`.
-/

set_option autoImplicit false

namespace Lib.CStmt

/-! ## Code that may be left -/

section Act

variable {X Y σ : Type}

/-- Code that changes a state and goes on, or is left for a reason. -/
def Act (X σ : Type) : Type := σ → Option X × σ

namespace Act

def skip : Act X σ := fun s => (none, s)

/-- A change that always goes on. -/
def set (g : σ → σ) : Act X σ := fun s => (none, g s)

def seq (a b : Act X σ) : Act X σ := fun s =>
  match a s with
  | (none, s) => b s
  | (some x, s) => (some x, s)

/-- `if (test) a else b`; the test may have effects. -/
def branch (test : σ → Bool × σ) (a b : Act X σ) : Act X σ := fun s =>
  match test s with
  | (true, s) => a s
  | (false, s) => b s

/-- `for (; test; next) body`. After `n` rounds it is left. -/
def loop (cut : X) (test : σ → Bool × σ) (next : σ → σ) (body : Act X σ) : Nat → Act X σ
  | 0 => fun s => (some cut, s)
  | n + 1 => branch test (seq body (seq (set next) (loop cut test next body n))) skip

/-- The same code, with other reasons. -/
def leave (f : X → Y) (a : Act X σ) : Act Y σ := fun s => ((a s).1.map f, (a s).2)

@[simp] theorem leave_skip (f : X → Y) : leave f (skip : Act X σ) = skip := rfl

@[simp] theorem leave_set (f : X → Y) (g : σ → σ) : leave f (set g) = set g := rfl

theorem leave_seq (f : X → Y) (a b : Act X σ) :
    leave f (seq a b) = seq (leave f a) (leave f b) := by
  funext s
  simp only [leave, seq]
  rcases a s with ⟨_ | x, s'⟩ <;> rfl

theorem leave_branch (f : X → Y) (test : σ → Bool × σ) (a b : Act X σ) :
    leave f (branch test a b) = branch test (leave f a) (leave f b) := by
  funext s
  simp only [leave, branch]
  rcases test s with ⟨_ | _, s'⟩ <;> rfl

theorem leave_loop (f : X → Y) (cut : X) (test : σ → Bool × σ) (next : σ → σ) (body : Act X σ) :
    ∀ n, leave f (loop cut test next body n) = loop (f cut) test next (leave f body) n
  | 0 => rfl
  | n + 1 => by
    rw [loop, loop, leave_branch, leave_seq, leave_seq, leave_loop f cut test next body n,
      leave_skip, leave_set]

theorem seq_assoc (a b c : Act X σ) : seq (seq a b) c = seq a (seq b c) := by
  funext s
  simp only [seq]
  rcases a s with ⟨_ | x, s'⟩ <;> rfl

@[simp] theorem seq_skip (a : Act X σ) : seq a skip = a := by
  funext s
  simp only [seq]
  rcases a s with ⟨_ | x, s'⟩ <;> rfl

@[simp] theorem skip_seq (a : Act X σ) : seq skip a = a := rfl

end Act

end Act

/-! ## Tokens and statements -/

variable {S C H : Type}

/-- `s;`, `if (c)`, `else`, `for (h)` or `while (h)`, `{`, `}`, `goto l;`, `l:` and `return r;`. -/
inductive Tok (S C H : Type) where
  | simple (s : S)
  | iff (c : C)
  | els
  | loop (h : H)
  | lbrace
  | rbrace
  | goto
  | label
  | ret
deriving DecidableEq

inductive Stmt (S C H : Type) where
  | skip
  | simple (s : S)
  | seq (a b : Stmt S C H)
  | ite (c : C) (a b : Stmt S C H)
  | loop (h : H) (a : Stmt S C H)
  | goto
  | ret
deriving DecidableEq

/-- The statements of a compound statement. -/
def Stmt.block (l : List (Stmt S C H)) : Stmt S C H := l.foldr .seq .skip

mutual

/-- Read one statement. -/
def parseStmt : Nat → List (Tok S C H) → Option (Stmt S C H × List (Tok S C H))
  | 0, _ => none
  | n + 1, ts =>
      match ts with
      | .simple s :: ts => some (.simple s, ts)
      | .goto :: ts => some (.goto, ts)
      | .ret :: ts => some (.ret, ts)
      | .lbrace :: ts =>
          match parseItems n ts with
          | some (l, .rbrace :: ts) => some (.block l, ts)
          | _ => none
      | .loop h :: ts =>
          match parseStmt n ts with
          | some (a, ts) => some (.loop h a, ts)
          | none => none
      | .iff c :: ts =>
          match parseStmt n ts with
          | none => none
          | some (a, .els :: ts) =>
              match parseStmt n ts with
              | some (b, ts) => some (.ite c a b, ts)
              | none => none
          | some (a, ts) => some (.ite c a .skip, ts)
      | _ => none

/-- Read statements up to a `}`, a label or the end. -/
def parseItems : Nat → List (Tok S C H) → Option (List (Stmt S C H) × List (Tok S C H))
  | 0, _ => none
  | n + 1, ts =>
      match ts with
      | [] => some ([], [])
      | .rbrace :: ts => some ([], .rbrace :: ts)
      | .label :: ts => some ([], .label :: ts)
      | ts =>
          match parseStmt n ts with
          | none => none
          | some (a, ts) =>
              match parseItems n ts with
              | none => none
              | some (l, ts) => some (a :: l, ts)

end

/-- The body of a function with a label: what is in front of it and what is behind it. -/
structure Fn (S C H : Type) where
  body : Stmt S C H
  tail : Stmt S C H
deriving DecidableEq

/-- Read the body of a function, behind its `{`. A token takes two calls at most. -/
def parseFn (ts : List (Tok S C H)) : Option (Fn S C H) :=
  match parseItems (2 * ts.length + 1) ts with
  | some (l, .label :: ts) =>
      match parseItems (2 * ts.length + 1) ts with
      | some (l', [.rbrace]) => some ⟨.block l, .block l'⟩
      | _ => none
  | _ => none

/-! ## What is read

`Reads` and `ReadsItems` are the grammar behind the two functions, with what is left of the tokens.
A code generator is best checked against them, since they know nothing of numbers of calls. -/

/-- `ts` goes on with the end of a compound statement, a label, or not at all. -/
def Closes : List (Tok S C H) → Prop
  | [] => True
  | .rbrace :: _ => True
  | .label :: _ => True
  | _ => False

mutual

/-- A statement is read from `ts`, and the last list is left. -/
inductive Reads : List (Tok S C H) → Stmt S C H → List (Tok S C H) → Prop
  | simple (s : S) (ts : List (Tok S C H)) : Reads (.simple s :: ts) (.simple s) ts
  | goto (ts : List (Tok S C H)) : Reads (.goto :: ts) .goto ts
  | ret (ts : List (Tok S C H)) : Reads (.ret :: ts) .ret ts
  | block {ts rest : List (Tok S C H)} {l : List (Stmt S C H)}
      (h : ReadsItems ts l (.rbrace :: rest)) : Reads (.lbrace :: ts) (.block l) rest
  | loop {ts rest : List (Tok S C H)} {a : Stmt S C H} (c : H) (h : Reads ts a rest) :
      Reads (.loop c :: ts) (.loop c a) rest
  | ite {ts mid rest : List (Tok S C H)} {a b : Stmt S C H} (c : C)
      (ha : Reads ts a (.els :: mid)) (hb : Reads mid b rest) :
      Reads (.iff c :: ts) (.ite c a b) rest
  | ifOnly {ts rest : List (Tok S C H)} {a : Stmt S C H} (c : C) (h : Reads ts a rest)
      (hels : rest.head? ≠ some .els) : Reads (.iff c :: ts) (.ite c a .skip) rest

/-- So are the statements up to where something closes. -/
inductive ReadsItems : List (Tok S C H) → List (Stmt S C H) → List (Tok S C H) → Prop
  | nil {ts : List (Tok S C H)} (h : Closes ts) : ReadsItems ts [] ts
  | cons {ts mid rest : List (Tok S C H)} {a : Stmt S C H} {l : List (Stmt S C H)}
      (ha : Reads ts a mid) (hl : ReadsItems mid l rest) : ReadsItems ts (a :: l) rest

end

section Parse

variable {ts rest : List (Tok S C H)} {a : Stmt S C H} {l : List (Stmt S C H)}

mutual

theorem Reads.shorter : ∀ {ts rest : List (Tok S C H)} {a : Stmt S C H},
    Reads ts a rest → rest.length < ts.length
  | _, _, _, .simple _ _ => Nat.lt_succ_self _
  | _, _, _, .goto _ => Nat.lt_succ_self _
  | _, _, _, .ret _ => Nat.lt_succ_self _
  | _, _, _, .block h => by
    have := h.shorter
    simp only [List.length_cons] at this ⊢
    omega
  | _, _, _, .loop _ h => Nat.lt_succ_of_lt h.shorter
  | _, _, _, .ite _ ha hb => by
    have hthen := ha.shorter
    have helse := hb.shorter
    simp only [List.length_cons] at hthen ⊢
    omega
  | _, _, _, .ifOnly _ h _ => Nat.lt_succ_of_lt h.shorter

theorem ReadsItems.shorter : ∀ {ts rest : List (Tok S C H)} {l : List (Stmt S C H)},
    ReadsItems ts l rest → rest.length ≤ ts.length
  | _, _, _, .nil _ => Nat.le_refl _
  | _, _, _, .cons ha hl => Nat.le_trans hl.shorter (Nat.le_of_lt ha.shorter)

end

/-- Where a statement is read nothing closes. -/
theorem Reads.items_succ (h : Reads ts a rest) (n : Nat) :
    parseItems (n + 1) ts = match parseStmt n ts with
      | none => none
      | some (a, ts) => match parseItems n ts with
        | none => none
        | some (l, ts) => some (a :: l, ts) := by
  cases h <;> rfl

theorem parseStmt_ifOnly {n : Nat} (c : C) (h : parseStmt n ts = some (a, rest))
    (hels : rest.head? ≠ some .els) :
    parseStmt (n + 1) (.iff c :: ts) = some (.ite c a .skip, rest) := by
  rw [parseStmt, h]
  rcases rest with _ | ⟨_ | _ | _ | _ | _ | _ | _ | _ | _, rest⟩
  case cons.els => exact absurd rfl hels
  all_goals rfl

mutual

/-- Two calls for every token are enough. -/
theorem Reads.parse : ∀ {ts rest : List (Tok S C H)} {a : Stmt S C H}, Reads ts a rest →
    ∀ n, 2 * ts.length ≤ n → parseStmt n ts = some (a, rest)
  | _ :: _, _, _, h, 0, hn => by simp at hn
  | _, _, _, .simple _ _, n + 1, _ => rfl
  | _, _, _, .goto _, n + 1, _ => rfl
  | _, _, _, .ret _, n + 1, _ => rfl
  | _, _, _, .block h, n + 1, hn => by
    rw [parseStmt, h.parse n (by simp only [List.length_cons] at hn; omega)]
  | _, _, _, .loop _ h, n + 1, hn => by
    rw [parseStmt, h.parse n (by simp only [List.length_cons] at hn; omega)]
  | _, _, _, .ite _ ha hb, n + 1, hn => by
    have hmid := ha.shorter
    simp only [List.length_cons] at hn hmid
    rw [parseStmt, ha.parse n (by omega)]
    dsimp only
    rw [hb.parse n (by omega)]
  | _, _, _, .ifOnly c h hels, n + 1, hn =>
    parseStmt_ifOnly c (h.parse n (by simp only [List.length_cons] at hn; omega)) hels

theorem ReadsItems.parse : ∀ {ts rest : List (Tok S C H)} {l : List (Stmt S C H)},
    ReadsItems ts l rest → ∀ n, 2 * ts.length + 1 ≤ n → parseItems n ts = some (l, rest)
  | _, _, _, _, 0, hn => by omega
  | ts, _, _, .nil h, n + 1, _ => by
    rcases ts with _ | ⟨_ | _ | _ | _ | _ | _ | _ | _ | _, ts⟩
    case nil => rfl
    case cons.rbrace => rfl
    case cons.label => rfl
    all_goals exact h.elim
  | _, _, _, .cons ha hl, n + 1, hn => by
    have hmid := ha.shorter
    rw [ha.items_succ, ha.parse n (by omega)]
    dsimp only
    rw [hl.parse n (by omega)]

end

/-- **A function is read** from the statements in front of its label and those behind it. -/
theorem parseFn_eq {ts' : List (Tok S C H)} {l' : List (Stmt S C H)}
    (h : ReadsItems ts l (.label :: ts')) (h' : ReadsItems ts' l' [.rbrace]) :
    parseFn ts = some ⟨.block l, .block l'⟩ := by
  rw [parseFn, h.parse _ (Nat.le_refl _)]
  dsimp only
  rw [h'.parse _ (Nat.le_refl _)]

end Parse

/-! ## Running statements -/

/-- Why a statement is left: `goto`, `return`, or its rounds are used up. -/
inductive Exit where
  | goto
  | ret
  | cut
deriving DecidableEq

/-- `init; test; next` of a loop. -/
structure Head (σ : Type) where
  init : σ → σ
  test : σ → Bool × σ
  next : σ → σ

/-- What the parts of the statements mean. -/
structure Machine (S C H σ : Type) where
  simple : S → σ → σ
  cond : C → σ → Bool × σ
  head : H → Head σ

section Exec

variable {σ : Type} (M : Machine S C H σ) (rounds : Nat)

def Head.run {X : Type} (h : Head σ) (cut : X) (rounds : Nat) (body : Act X σ) : Act X σ :=
  .seq (.set h.init) (.loop cut h.test h.next body rounds)

def exec : Stmt S C H → Act Exit σ
  | .skip => .skip
  | .simple s => .set (M.simple s)
  | .seq a b => .seq (exec a) (exec b)
  | .ite c a b => .branch (M.cond c) (exec a) (exec b)
  | .loop h a => (M.head h).run .cut rounds (exec a)
  | .goto => fun s => (some .goto, s)
  | .ret => fun s => (some .ret, s)

/-- Run what is behind the label, again for every `goto`. -/
def execTail (tail : Stmt S C H) : Nat → Act Exit σ
  | 0 => fun s => (some .cut, s)
  | n + 1 => fun s =>
      match exec M rounds tail s with
      | (some .goto, s) => execTail tail n s
      | r => r

/-- Run a function. Control reaches the label from the statement in front of it, or by `goto`. -/
def Fn.exec (f : Fn S C H) : Act Exit σ := fun s =>
  match CStmt.exec M rounds f.body s with
  | (none, s) => execTail M rounds f.tail (rounds + 1) s
  | (some .goto, s) => execTail M rounds f.tail (rounds + 1) s
  | r => r

theorem exec_block_append (l l' : List (Stmt S C H)) :
    exec M rounds (.block (l ++ l'))
      = .seq (exec M rounds (.block l)) (exec M rounds (.block l')) := by
  induction l with
  | nil => rfl
  | cons a l ih =>
    show Act.seq _ (exec M rounds (.block (l ++ l')))
      = .seq (.seq (exec M rounds a) (exec M rounds (.block l))) _
    rw [ih, Act.seq_assoc]

end Exec

end Lib.CStmt
