import Galileo.Lib.Bytes
import Galileo.Lib.CStmt

/-!
# The template compiler (`template/parse.y`)

A template is turned into a C function while it is parsed: the actions of the grammar print pieces
of C, and what one production opens another one closes. Here a block is its derivation by the
grammar of `parse.y`, one constructor for each production (`Block`, `Body`, `Special`, `Endif`);
`tokens` is the sequence of tokens it derives, and `emit` is what the actions print for it, in the
order in which they are executed.

What is printed is C, in the form of `Lib.CStmt`. The pieces of C that come from the template itself
(conditions, expressions, the heads of loops, the lines between `{!` and `!}`) are copied as they
are, and `Host` says what they mean in the program the function becomes part of; so it does for the
functions that are called. The `#line` directives of `dbg` are left out.
-/

set_option autoImplicit false

namespace Galileo

open Lib Lib.CStmt

namespace Tmpl

/-! ## The grammar -/

/-- The tokens of `yylex` that may be in a block, under their names in `parse.y`. `OPEN`, `CLOSE`,
`BANG` and `BAR` are the characters `{`, `}`, `!` and `|`. -/
inductive Token where
  | OPEN | CLOSE | BANG | BAR
  | DEFINE | ELSE | END | FINALLY | FOR | IF | PRINTF
  | RENDER | TQFOREACH | UNSAFE | URLESCAPE | WHILE
  | STRING (s : Bytes)
deriving DecidableEq

/-- `nstring` and `string`: one or more `STRING`. -/
structure Strings where
  first : Bytes
  more : List Bytes
deriving DecidableEq

namespace Strings

def tokens (s : Strings) : List Token := .STRING s.first :: s.more.map .STRING

/-- The value of `nstring`. -/
def nstring (s : Strings) : Bytes := s.first ++ s.more.flatten

/-- The value of `string`. -/
def string (s : Strings) : Bytes := s.first ++ s.more.flatMap (32 :: ·)

end Strings

/-! ### The text of a `tp_write` -/

/-- The loop of `printq`, with the closing quote. -/
def printqLoop : Bytes → Bytes
  | [] => [34]
  | b :: s => if b == 34 then 92 :: b :: printqLoop s else b :: printqLoop s

def printq (s : Bytes) : Bytes := 34 :: printqLoop s

/-- What the action of `raw` prints behind the literal; the number is `strlen`. -/
def rawTail (s : Bytes) : Bytes :=
  lit ", " ++ fmtNat s.length ++ lit ")) == -1) goto err;\n"

inductive Stringy where
  | last (s : Bytes)
  | cons (s : Bytes) (rest : Stringy)
  | bar (rest : Stringy)
deriving DecidableEq

namespace Stringy

def tokens : Stringy → List Token
  | .last s => [.STRING s]
  | .cons s rest => .STRING s :: rest.tokens
  | .bar rest => .BAR :: rest.tokens

def value : Stringy → Bytes
  | .last s => s
  | .cons s rest => s ++ 32 :: rest.value
  | .bar rest => 124 :: rest.value

end Stringy

/-- `'!' verbatim1 '!'`. -/
abbrev Verbatim := List Bytes

def Verbatim.tokens (v : Verbatim) : List Token := .BANG :: v.map .STRING ++ [.BANG]

mutual

inductive Body where
  | empty
  | verbatim (b : Body) (v : Verbatim)
  | raw (b : Body) (s : Strings)
  | special (b : Body) (p : Special)

/-- `special`, with `printf` and `loop`. The last three are `expr | unsafe`, `expr | urlescape` and
`expr`. -/
inductive Special where
  | render (e : Strings)
  | printf (args : List Bytes)
  | cond (c : Stringy) (b : Body) (e : Endif)
  | for (c : Stringy) (b : Body)
  | tqforeach (var head field : Bytes) (b : Body)
  | while (c : Stringy) (b : Body)
  | plain (e : Strings)
  | urlescape (e : Strings)
  | htmlescape (e : Strings)

inductive Endif where
  | last
  | els (b : Body)
  | elsif (c : Stringy) (b : Body) (e : Endif)

end

/-- `define body end`, or with `finally` in front of the `end`. -/
inductive Block where
  | plain (name : Strings) (b : Body)
  | finally (name : Strings) (b : Body) (verbatims : List Verbatim)

/-- `{{ ... }}`. -/
def braces (ts : List Token) : List Token := .OPEN :: ts ++ [.CLOSE]

mutual

def Body.tokens : Body → List Token
  | .empty => []
  | .verbatim b v => b.tokens ++ v.tokens
  | .raw b s => b.tokens ++ s.tokens
  | .special b p => b.tokens ++ p.tokens

def Special.tokens : Special → List Token
  | .render e => braces (.RENDER :: e.tokens)
  | .printf args => braces (.PRINTF :: args.map .STRING)
  | .cond c b e => braces (.IF :: c.tokens) ++ b.tokens ++ e.tokens
  | .for c b => braces (.FOR :: c.tokens) ++ b.tokens ++ braces [.END]
  | .tqforeach var head field b =>
      braces [.TQFOREACH, .STRING var, .STRING head, .STRING field] ++ b.tokens ++ braces [.END]
  | .while c b => braces (.WHILE :: c.tokens) ++ b.tokens ++ braces [.END]
  | .plain e => braces (e.tokens ++ [.BAR, .UNSAFE])
  | .urlescape e => braces (e.tokens ++ [.BAR, .URLESCAPE])
  | .htmlescape e => braces e.tokens

def Endif.tokens : Endif → List Token
  | .last => braces [.END]
  | .els b => braces [.ELSE] ++ b.tokens ++ braces [.END]
  | .elsif c b e => braces (.ELSE :: .IF :: c.tokens) ++ b.tokens ++ e.tokens

end

def Block.tokens : Block → List Token
  | .plain name b => braces (.DEFINE :: name.tokens) ++ b.tokens ++ braces [.END]
  | .finally name b vs =>
      braces (.DEFINE :: name.tokens) ++ b.tokens ++ braces [.FINALLY]
        ++ vs.flatMap Verbatim.tokens ++ braces [.END]

/-! ## The actions -/

/-- A call whose result goes to `tp_ret`. -/
inductive CallExpr where
  /-- `tp_write(tp, "lit", len)` -/
  | tpWrite (lit : Bytes) (len : Nat)
  /-- `tp_writes(tp, e)` -/
  | tpWrites (e : Bytes)
  /-- `tp_urlescape(tp, e)` -/
  | tpUrlescape (e : Bytes)
  /-- `tp_htmlescape(tp, e)` -/
  | tpHtmlescape (e : Bytes)
  /-- `tp_htmlescape(tp, tp->tp_tmp)` -/
  | tpTmp
  /-- the expression of a `render` -/
  | expr (e : Bytes)
deriving DecidableEq

/-- The conditions of `if`. -/
inductive Cond where
  /-- from the template -/
  | expr (c : Bytes)
  /-- `(tp_ret = call) == -1` -/
  | failed (call : CallExpr)
  /-- `asprintf(&tp->tp_tmp, args) == -1` -/
  | asprintf (args : List Bytes)
deriving DecidableEq

inductive LoopHead where
  | for (c : Bytes)
  | tqforeach (var head field : Bytes)
  | while (c : Bytes)
deriving DecidableEq

inductive Simple where
  /-- `int tp_ret = 0` -/
  | tpRet
  /-- lines of a `verbatim` -/
  | code (lines : List Bytes)
  /-- `free(tp->tp_tmp)` -/
  | freeTmp
  /-- `tp->tp_tmp = NULL` -/
  | nullTmp
deriving DecidableEq

abbrev CTok := Tok Simple Cond LoopHead

/-- `if ((tp_ret = call) == -1) goto err;` -/
def orGoto (c : Cond) : List CTok := [.iff c, .goto]

/-- The lines `verbatim1` prints. -/
def Verbatim.lines (v : Verbatim) : List Bytes := v.filter (!·.isEmpty)

/-- The text `verbatim1` prints. -/
def Verbatim.text (v : Verbatim) : Bytes := v.lines.flatMap (· ++ [10])

def Verbatim.emit (v : Verbatim) : List CTok :=
  if v.lines.isEmpty then [] else [.simple (.code v.lines)]

mutual

def Body.emit : Body → List CTok
  | .empty => []
  | .verbatim b v => b.emit ++ v.emit
  | .raw b s => b.emit ++ orGoto (.failed (.tpWrite s.nstring s.nstring.length))
  | .special b p => b.emit ++ p.emit

def Special.emit : Special → List CTok
  | .render e => orGoto (.failed (.expr e.string))
  | .printf args =>
      orGoto (.asprintf args) ++ orGoto (.failed .tpTmp) ++ [.simple .freeTmp, .simple .nullTmp]
  -- the `{` is printed by `if`, the `}` by `special`
  | .cond c b e => [.iff (.expr c.value), .lbrace] ++ b.emit ++ e.emit ++ [.rbrace]
  | .for c b => [.loop (.for c.value), .lbrace] ++ b.emit ++ [.rbrace]
  | .tqforeach var head field b =>
      [.loop (.tqforeach var head field), .lbrace] ++ b.emit ++ [.rbrace]
  | .while c b => [.loop (.while c.value), .lbrace] ++ b.emit ++ [.rbrace]
  | .plain e => orGoto (.failed (.tpWrites e.string))
  | .urlescape e => orGoto (.failed (.tpUrlescape e.string))
  | .htmlescape e => orGoto (.failed (.tpHtmlescape e.string))

def Endif.emit : Endif → List CTok
  | .last => []
  | .els b => [.rbrace, .els, .lbrace] ++ b.emit
  | .elsif c b e => [.rbrace, .els, .iff (.expr c.value), .lbrace] ++ b.emit ++ e.emit

end

/-- What is printed behind the name of the function and its `{`. -/
def Block.emit : Block → List CTok
  | .plain _ b => .simple .tpRet :: b.emit ++ [.label, .ret, .rbrace]
  | .finally _ b vs =>
      .simple .tpRet :: b.emit ++ .label :: vs.flatMap Verbatim.emit ++ [.ret, .rbrace]

/-- The tokens `ts` are accepted as the block `b`, for which `out` is printed. -/
structure Compiles (ts : List Token) (b : Block) (out : List CTok) : Prop where
  derives : b.tokens = ts
  prints : b.emit = out

/-! ## The function in its program -/

/-- A call that was made, with the values of its arguments. -/
inductive Call where
  | write (text : Bytes)
  | writes (s : Bytes)
  | urlescape (s : Bytes)
  | htmlescape (s : Bytes)
  | render (e : Bytes)
deriving DecidableEq

/-- The program the function is part of: what the C that was copied does to its state, and what the
functions return. -/
structure Host (σ : Type) where
  cond : Bytes → σ → Bool × σ
  forHead : Bytes → Head σ
  tqforeach : Bytes → Bytes → Bytes → Head σ
  expr : Bytes → σ → Bytes × σ
  call : Call → σ → Int × σ
  asprintf : List Bytes → σ → Option Bytes × σ
  code : List Bytes → σ → σ

inductive Event where
  | call (c : Call) (ret : Int)
  | asprintf (args : List Bytes) (ok : Bool)
  | code (lines : List Bytes)
deriving DecidableEq

/-- The state of the program while the function runs, and what has happened. -/
structure Turn (σ : Type) where
  host : σ
  tpRet : Int
  tpTmp : Option Bytes
  trace : List Event
deriving DecidableEq

section Machine

variable {σ : Type} (host : Host σ)

/-- A test in the program, while the function runs. -/
def onHost (test : σ → Bool × σ) (t : Turn σ) : Bool × Turn σ :=
  ((test t.host).1, { t with host := (test t.host).2 })

def onHead (h : Head σ) : Head (Turn σ) where
  init t := { t with host := h.init t.host }
  test := onHost h.test
  next t := { t with host := h.next t.host }

def Host.head : LoopHead → Head (Turn σ)
  | .for c => onHead (host.forHead c)
  | .tqforeach var head field => onHead (host.tqforeach var head field)
  | .while c => ⟨id, onHost (host.cond c), id⟩

def Host.lines (ls : List Bytes) (t : Turn σ) : Turn σ :=
  { t with host := host.code ls t.host, trace := t.trace ++ [.code ls] }

/-- `tp_ret = f(...)`. -/
def Host.perform (c : Call) (t : Turn σ) : Turn σ :=
  let r := host.call c t.host
  { t with host := r.2, tpRet := r.1, trace := t.trace ++ [.call c r.1] }

/-- The argument is evaluated, then the function is called. -/
def Host.performOn (f : Bytes → Call) (e : Bytes) (t : Turn σ) : Turn σ :=
  let r := host.expr e t.host
  host.perform (f r.1) { t with host := r.2 }

/-- `asprintf(&tp->tp_tmp, args)`. -/
def Host.print (args : List Bytes) (t : Turn σ) : Turn σ :=
  let r := host.asprintf args t.host
  { t with
    host := r.2
    tpTmp := r.1.or t.tpTmp
    trace := t.trace ++ [.asprintf args r.1.isSome] }

def Host.assign (t : Turn σ) : CallExpr → Turn σ
  | .tpWrite lit len => host.perform (.write (lit.take len)) t
  | .tpWrites e => host.performOn .writes e t
  | .tpUrlescape e => host.performOn .urlescape e t
  | .tpHtmlescape e => host.performOn .htmlescape e t
  | .tpTmp => host.perform (.htmlescape (t.tpTmp.getD [])) t
  | .expr e => host.perform (.render e) t

/-- The meaning of what is printed. -/
def Host.machine : Machine Simple Cond LoopHead (Turn σ) where
  simple
    | .tpRet, t => { t with tpRet := 0 }
    | .code ls, t => host.lines ls t
    | .freeTmp, t => t
    | .nullTmp, t => { t with tpTmp := none }
  cond
    | .expr c, t => onHost (host.cond c) t
    | .failed call, t => (decide ((host.assign t call).tpRet = -1), host.assign t call)
    | .asprintf args, t => ((host.asprintf args t.host).1.isNone, host.print args t)
  head := host.head

end Machine

end Tmpl

end Galileo
