import Galileo.Model.ConfText

/-!
# What a configuration text says

Two descriptions that owe nothing to the lexer's buffers or to the states of the parser.

* **Spelling.** `Writes t w rest` says that `w` is a way to write the token `t` in front of `rest`:
  words and numbers end where a character follows that cannot be part of them, quotes mean what
  `unquote` says. `Spells ts text` says that a text is these tokens, with any blanks between them.
* **The grammar.** A `Stmt` is a derivation tree for one line of `grammar`, with the tokens at its
  leaves and the actions that yacc performs for it.
-/

set_option autoImplicit false

namespace Galileo.Conf

open Lib

/-! ## Spelling -/

/-- What a string in quotes stands for, and what is behind the quote that ends it. -/
def unquote (quotec : UInt8) : Bytes → Option (Bytes × Bytes)
  | [] => none
  | c :: s =>
    if c = 10 then unquote quotec s
    else if c = 92 then
      match s with
      | [] => none
      | next :: s' =>
        if next = quotec ∨ next = 32 ∨ next = 9 then
          (unquote quotec s').map fun r => (next :: r.1, r.2)
        else if next = 10 then unquote quotec s'
        else (unquote quotec (next :: s')).map fun r => (92 :: r.1, r.2)
    else if c = quotec then some ([], s)
    else if c = 0 then none
    else (unquote quotec s).map fun r => (c :: r.1, r.2)

/-- The text has none of the marks around the value of a macro. -/
def Unmarked (s : Bytes) : Prop := ∀ c ∈ s, c ≠ startExpand ∧ c ≠ doneExpand

/-- A word that needs no quotes. What begins with digits is a number, if a character follows that
can end one. -/
structure Bare (c : UInt8) (cs : Bytes) : Prop where
  begins : beginsWord c = true
  inside : ∀ d ∈ cs, allowedInString d = true ∧ d ≠ 92
  number : isdigit c = true → ∃ d ∈ (cs.dropWhile isdigit).head?, allowedToEndNumber d = false

/-- What is written without a blank behind a word. -/
def endsWord (d : UInt8) : Bool :=
  isblank d || d == 10 || d == 61 || d == 123 || d == 125 || d == 35

/-- What is written without a blank behind a number. -/
def endsNumber (d : UInt8) : Bool := isblank d || d == 10 || d == 61 || d == 125

inductive Writes : Tok → Bytes → Bytes → Prop
  | sign {c : UInt8} {rest : Bytes} (hc : c = 10 ∨ c = 61 ∨ c = 123 ∨ c = 125) :
      Writes (.char c) [c] rest
  | comment {s rest : Bytes} (hs : ∀ c ∈ s, c ≠ 10 ∧ c ≠ 92) (hmarks : Unmarked s) :
    Writes (.char 10) (35 :: s ++ [10]) rest
  | quoted {quotec : UInt8} {w s rest : Bytes} (hquote : quotec = 34 ∨ quotec = 39)
    (hw : unquote quotec w = some (s, [])) (hmarks : Unmarked w) (hlen : s.length + 1 < bufSize) :
    Writes (.STRING s) (quotec :: w) rest
  | word {c d : UInt8} {cs rest : Bytes} (hbare : Bare c cs) (hlen : cs.length + 1 < bufSize)
    (hd : endsWord d = true) : Writes (lookup (c :: cs)) (c :: cs) (d :: rest)
  | number {c d : UInt8} {cs rest : Bytes} {n : Int} (hc : c = 45 ∨ isdigit c = true)
    (hcs : ∀ b ∈ cs, isdigit b = true) (hn : strtonum (c :: cs) (-2 ^ 63) (2 ^ 63 - 1) = some n)
    (hlen : cs.length + 1 < bufSize) (hd : endsNumber d = true) :
    Writes (.NUMBER n) (c :: cs) (d :: rest)

inductive Spells : List Tok → Bytes → Prop
  | nil {blanks : Bytes} (hblanks : ∀ c ∈ blanks, isblank c = true) : Spells [] blanks
  | cons {blanks w rest : Bytes} {t : Tok} {ts : List Tok}
      (hblanks : ∀ c ∈ blanks, isblank c = true)
    (ht : Writes t w rest) (hts : Spells ts rest) : Spells (t :: ts) (blanks ++ (w ++ rest))

/-! ## The grammar -/

/-- The rule `string`: one `STRING` or more, put together. -/
structure Strings where
  first : Bytes
  more : List Bytes

def Strings.tokens (s : Strings) : List Tok := .STRING s.first :: s.more.map .STRING

def Strings.value (s : Strings) : Bytes := s.first ++ s.more.flatten

def PortTok.token : PortTok → Tok
  | .number n => .NUMBER n
  | .string s => .STRING s

/-- `proxyoptsl`. -/
inductive OptTree where
  | source (addr : Bytes) (proxyport : Option PortTok)
  | hostname (name : Bytes)
  | stylesheet (path : Strings)
  | noFooter
  | noImagePreview
  | noNavigationBar
  | noTls

def OptTree.tokens : OptTree → List Tok
  | .source addr none => [.SOURCE, .STRING addr]
  | .source addr (some port) => [.SOURCE, .STRING addr, .PORT, port.token]
  | .hostname name => [.HOSTNAME, .STRING name]
  | .stylesheet path => .STYLESHEET :: path.tokens
  | .noFooter => [.NO, .FOOTER]
  | .noImagePreview => [.NO, .IMAGE, .PREVIEW]
  | .noNavigationBar => [.NO, .NAVIGATION, .BAR]
  | .noTls => [.NO, .TLS]

def OptTree.opt : OptTree → Opt
  | .source addr port => .source addr port
  | .hostname name => .hostname name
  | .stylesheet path => .stylesheet path.value
  | .noFooter => .noFooter
  | .noImagePreview => .noImagePreview
  | .noNavigationBar => .noNavigationBar
  | .noTls => .noTls

def newlines (n : Nat) : List Tok := List.replicate n (.char 10)

/-- `proxy`. The numbers are the newlines of `optnl`; behind an option that is not the first there
is one more. -/
structure ProxyTree where
  host : Bytes
  optnl : Nat
  first : OptTree
  firstnl : Nat
  more : List (OptTree × Nat)

/-- Up to `proxyopts_l`. -/
def ProxyTree.opened (t : ProxyTree) : List Tok :=
  [.PROXY, .STRING t.host, .char 123] ++ newlines t.optnl ++ t.first.tokens ++ newlines t.firstnl ++
    t.more.flatMap fun o => o.1.tokens ++ newlines (o.2 + 1)

def ProxyTree.begun (t : ProxyTree) : List Action :=
  .proxy t.host :: (t.first :: t.more.map Prod.fst).map fun o => .option o.opt

/-- One alternative of `grammar`, with its newline. -/
inductive Stmt where
  | includeFile (name : Strings)
  | empty
  | varset (nam val : Bytes)
  | prefork (n : Int)
  | chroot (path : Bytes)
  | proxy (t : ProxyTree)

def Stmt.tokens : Stmt → List Tok
  | .includeFile name => .INCLUDE :: name.tokens ++ [.char 10]
  | .empty => [.char 10]
  | .varset nam val => [.STRING nam, .char 61, .STRING val, .char 10]
  | .prefork n => [.PREFORK, .NUMBER n, .char 10]
  | .chroot path => [.CHROOT, .STRING path, .char 10]
  | .proxy t => t.opened ++ [.char 125, .char 10]

def Stmt.actions (files : Bytes → Option Bytes) : Stmt → List Action
  | .includeFile name => [.includeFile name.value (files name.value).isSome]
  | .empty => []
  | .varset nam val => [.varset nam val]
  | .prefork n => [.prefork n]
  | .chroot path => [.chroot path]
  | .proxy t => t.begun ++ [.close]

end Galileo.Conf
