import Mathlib.Algebra.GroupWithZero.Nat
import Galileo.Lib.Bsearch
import Galileo.Model.Config

/-!
# The text of the configuration file (`yylex` and the grammar of `parse.y`)

`Model/Config` begins with the actions of the parser. Here is what is in front of them: the
characters, the tokens `yylex` makes of them, and what the parser does with the tokens.

* **Characters.** `igetc` reads what was pushed back and then the stream, and swallows the two marks
  between which the value of a macro stands. `lgetc(0)` drops backslashes, joins lines, makes one
  space of a run of blanks (of which the first may have been pushed back, the others are read off
  the stream), and makes up a newline at the end of a file; in quotes it does none of this.
* **The parser** is the one that yacc makes of the grammar. The grammar is regular, so its stack is
  a `State`. Some actions are performed before the next token is read and some behind it, which
  matters to the macros and the files: where one rule is all that can be reduced, yacc does not look
  at the next token.
* **Errors.** What a parser does when it is given a token it cannot use, or when an action ends in
  `YYERROR`, depends on the yacc that made it, and is not followed (`none`). `Model/Config` has all
  that it can be, and in a configuration that is accepted there is nothing of the kind.
* **The system.** `files` has the files that can be opened. The functions of `ctype.h` are those of
  the C locale. There is memory.

The loops have fuel, more than there are characters to read (`Lexer.room`). A macro of the command
line whose value has the second mark in it can be expanded for ever: then `yylex` is `none`. Line
numbers are only used in messages, and are left out.
-/

set_option autoImplicit false

namespace Galileo.Conf

open Lib

/-! ## Characters -/

/-- What is read of `struct file`. The top of `ungetbuf` is its first element. -/
structure File where
  ungetbuf : Bytes
  stream : Bytes
  eofReached : Bool
deriving DecidableEq

/-- The lexer, and what it and the actions have done so far. -/
structure Lexer where
  file : File
  /-- The files it is included by; `topfile` is the last of them. -/
  outer : List File
  expanding : Bool
  parse : Parse

def startExpand : UInt8 := 1

def doneExpand : UInt8 := 2

/-- The marks that are swallowed: `expanding` afterwards, and what is behind them. -/
def skipMarks (expanding : Bool) : Bytes → Bool × Bytes
  | [] => (expanding, [])
  | c :: s =>
    if c == startExpand then skipMarks true s
    else if c == doneExpand then skipMarks false s
    else (expanding, c :: s)

namespace Lexer

def yyerror (msg : Bytes) (l : Lexer) : Lexer := { l with parse := l.parse.yyerror msg }

def igetc (l : Lexer) : Option UInt8 × Lexer :=
  match skipMarks l.expanding l.file.ungetbuf with
  | (e, c :: u) => (some c, { l with expanding := e, file := { l.file with ungetbuf := u } })
  | (e, []) =>
    match skipMarks e l.file.stream with
    | (e, c :: s) =>
      (some c, { l with expanding := e, file := { l.file with ungetbuf := [], stream := s } })
    | (e, []) =>
      (none, { l with expanding := e, file := { l.file with ungetbuf := [], stream := [] } })

/-- `popfile`, with the file below. -/
def popfile (f : File) (outer : List File) (l : Lexer) : Lexer :=
  { l with file := f, outer := outer, parse := l.parse.popfile }

/-- `lgetc(quotec)`. At the end of an included file it goes on as if there were the quote. -/
def lgetcQuote (quotec : UInt8) (l : Lexer) : Option UInt8 × Lexer :=
  match l.igetc with
  | (some c, l) => (some c, l)
  | (none, l) =>
    let l := l.yyerror (lit "reached end of file while parsing quoted string")
    match l.outer with
    | [] => (none, l)
    | f :: outer => (some quotec, l.popfile f outer)

/-- More rounds than a loop of the lexer can make. -/
def room (l : Lexer) : Nat :=
  2 * ((l.file :: l.outer).map fun f => f.ungetbuf.length + f.stream.length + 1).sum + 2

/-- The loop at the start of `lgetc(0)`. -/
def unescape : Nat → Lexer → Option UInt8 × Lexer
  | 0, l => (none, l)
  | n + 1, l =>
    match l.igetc with
    | (some c, l) =>
      if c == 92 then
        match l.igetc with
        | (some next, l) => if next == 10 then unescape n l else (some next, l)
        | (none, l) => (none, l)
      else (some c, l)
    | (none, l) => (none, l)

/-- The loop of `lgetc(0)` at the end of a file, for the files below. -/
def popfiles : List File → Lexer → Option UInt8 × Lexer
  | [], l => (none, l)
  | f :: outer, l =>
    match (l.popfile f outer).igetc with
    | (some c, l) => (some c, l)
    | (none, l) => popfiles outer l

/-- `lgetc(0)`. -/
def lgetc (l : Lexer) : Option UInt8 × Lexer :=
  match l.unescape l.room with
  | (some c, l) =>
    if isblank c then
      (some 32, { l with file := { l.file with stream := l.file.stream.dropWhile isblank } })
    else (some c, l)
  | (none, l) =>
    if l.file.eofReached then popfiles l.outer l
    else (some 10, { l with file := { l.file with eofReached := true } })

/-- Pushing back `EOF` does nothing. -/
def lungetc (c : Option UInt8) (l : Lexer) : Lexer :=
  match c with
  | none => l
  | some c => { l with file := { l.file with ungetbuf := c :: l.file.ungetbuf } }

/-- `while (p(c = lgetc(0)))`: the first character that is not skipped. -/
def skip (p : UInt8 → Bool) : Nat → Lexer → Option UInt8 × Lexer
  | 0, l => (none, l)
  | n + 1, l =>
    match l.lgetc with
    | (some c, l) => if p c then skip p n l else (some c, l)
    | (none, l) => (none, l)

end Lexer

/-! ## Tokens -/

/-- What `yylex` returns. `char` is a character that stands for itself, `eof` is 0. -/
inductive Tok where
  | BAR | CHROOT | FOOTER | HOSTNAME | IMAGE | INCLUDE | NAVIGATION | NO | PORT | PREFORK | PREVIEW
  | PROXY | SOURCE | STYLESHEET | TLS | ERROR
  | NUMBER (n : Int)
  | STRING (s : Bytes)
  | char (c : UInt8)
  | eof
deriving DecidableEq

/-- The table of `lookup`. -/
def keywords : List (Bytes × Tok) :=
  [(lit "bar", .BAR), (lit "chroot", .CHROOT), (lit "footer", .FOOTER), (lit "hostname", .HOSTNAME),
   (lit "image", .IMAGE), (lit "include", .INCLUDE), (lit "navigation", .NAVIGATION),
   (lit "no", .NO), (lit "port", .PORT), (lit "prefork", .PREFORK), (lit "preview", .PREVIEW),
   (lit "proxy", .PROXY), (lit "source", .SOURCE), (lit "stylesheet", .STYLESHEET),
   (lit "tls", .TLS)]

/-- `kw_cmp`: `strcmp` orders strings as lists of bytes. -/
def kwCmp (k : Bytes) (e : Bytes × Tok) : Ordering := compare k e.1

/-- `lookup`, with the `strdup` of a `STRING`. -/
def lookup (s : Bytes) : Tok := ((bsearch (kwCmp s) keywords).map (·.2)).getD (.STRING s)

/-- The size of `buf`. -/
def bufSize : Nat := 8096

def isalnum (c : UInt8) : Bool := isalpha c || isdigit c

def ispunct (c : UInt8) : Bool := 33 ≤ c && c ≤ 126 && !isalnum c

def allowedToEndNumber (c : UInt8) : Bool :=
  isspace c || c == 41 || c == 44 || c == 47 || c == 125 || c == 61

/-- The characters a word begins with. -/
def beginsWord (c : UInt8) : Bool := isalnum c || c == 58 || c == 95 || c == 47

def allowedInString (c : UInt8) : Bool :=
  isalnum c ||
    (ispunct c && c != 40 && c != 41 && c != 123 && c != 125 && c != 33 && c != 61 && c != 35 &&
    c != 44)

/-- What `strtonum` says of a number that it refuses. -/
def errstr (s : Bytes) (min : Int) : Bytes :=
  match strtoll s with
  | some (n, []) => if n < min then lit "too small" else lit "too large"
  | _ => lit "invalid"

namespace Lexer

/-- `findeol`, behind a call of `yyerror`. -/
def fail (msg : Bytes) (l : Lexer) : Tok × Lexer :=
  let l := l.yyerror msg
  (.ERROR, (l.skip (· != 10) l.room).2)

/-- The loop over a string in quotes. -/
def quoteLoop (quotec : UInt8) : Nat → Bytes → Lexer → Tok × Lexer
  | 0, _, l => (.eof, l)
  | n + 1, buf, l =>
    let store (c : UInt8) (l : Lexer) : Tok × Lexer :=
      if bufSize - 1 ≤ buf.length + 1 then l.fail (lit "string too long")
      else quoteLoop quotec n (buf ++ [c]) l
    match l.lgetcQuote quotec with
    | (none, l) => (.eof, l)
    | (some c, l) =>
      if c == 10 then quoteLoop quotec n buf l
      else if c == 92 then
        match l.lgetcQuote quotec with
        | (none, l) => (.eof, l)
        | (some next, l) =>
          if next == quotec || next == 32 || next == 9 then store next l
          else if next == 10 then quoteLoop quotec n buf l
          else store 92 (l.lungetc (some next))
      else if c == quotec then (.STRING buf, l)
      else if c == 0 then l.fail (lit "syntax error")
      else store c l

/-- The loops over the digits of a number and the characters of a word: what is in `buf` and the
character behind it, or the lexer when `buf` is full. -/
def collect (allowed : UInt8 → Bool) : Nat → Bytes → UInt8 → Lexer →
    Except Lexer (Bytes × Option UInt8 × Lexer)
  | 0, _, _, l => .error l
  | n + 1, buf, c, l =>
    if bufSize ≤ buf.length + 1 then .error l
    else
      match l.lgetc with
      | (some c', l) =>
        if allowed c' then collect allowed n (buf ++ [c]) c' l else .ok (buf ++ [c], some c', l)
      | (none, l) => .ok (buf ++ [c], none, l)

/-- From the characters that may begin a word on. -/
def word (c : UInt8) (l : Lexer) : Tok × Lexer :=
  if beginsWord c then
    match collect allowedInString l.room [] c l with
    | .error l => l.fail (lit "string too long")
    | .ok (buf, c, l) => (lookup buf, l.lungetc c)
  else if c == 0 then (.eof, l)
  else (.char c, l)

/-- From the characters that may begin a number on. What turns out to be none is pushed back but for
the first character, which a word can begin with. -/
def number (c : UInt8) (l : Lexer) : Tok × Lexer :=
  if c == 45 || isdigit c then
    match collect isdigit l.room [] c l with
    | .error l => l.fail (lit "string too long")
    | .ok (buf, c', l) =>
      let l := l.lungetc c'
      if buf != [45] && c'.all allowedToEndNumber then
        match strtonum buf (-2 ^ 63) (2 ^ 63 - 1) with
        | some n => (.NUMBER n, l)
        | none => l.fail (lit "\"" ++ buf ++ lit "\" invalid number: " ++ errstr buf (-2 ^ 63))
      else
        let l := buf.tail.reverse.foldl (fun l c => l.lungetc (some c)) l
        if c == 45 then (.char c, l) else l.word c
  else l.word c

/-- The loop over the name of a macro. -/
def macroLoop : Nat → Bytes → Lexer → Except (Tok × Lexer) (Bytes × Lexer)
  | 0, _, l => .error (.eof, l)
  | n + 1, buf, l =>
    match l.lgetc with
    | (none, l) => .error (.eof, l)
    | (some c, l) =>
      if bufSize - 1 ≤ buf.length + 1 then .error (l.fail (lit "string too long"))
      else if isalnum c || c == 95 then macroLoop n (buf ++ [c]) l
      else .ok (buf, l.lungetc (some c))

/-- A macro is pushed back with its marks, the last character first. -/
def expand (val : Bytes) (l : Lexer) : Lexer :=
  { l with file := { l.file with ungetbuf := startExpand :: val ++ doneExpand :: l.file.ungetbuf } }

/-- From `top:` on. -/
def top : Nat → Lexer → Option (Tok × Lexer)
  | 0, _ => none
  | n + 1, l =>
    let (c, l) := l.skip isblank l.room
    let (c, l) := if c == some 35 then l.skip (· != 10) l.room else (c, l)
    match c with
    | none => some (.eof, l)
    | some c =>
      if c == 36 && !l.expanding then
        match macroLoop l.room [] l with
        | .error r => some r
        | .ok (buf, l) =>
          match symget buf l.parse.symhead with
          | (none, _) => some (l.fail (lit "macro '" ++ buf ++ lit "' not defined"))
          | (some val, symhead) =>
            top n ({ l with parse := { l.parse with symhead := symhead } }.expand val)
      else if c == 39 || c == 34 then some (quoteLoop c l.room [] l)
      else some (l.number c)

def yylex (l : Lexer) : Option (Tok × Lexer) := top l.room l

end Lexer

/-! ## The parser -/

/-- How far the parser is in a line. `first` says that the option is the first of its block: only
behind the others a newline must follow. -/
inductive State where
  | start
  | includeFile
  | includeName (name : Bytes)
  | varset (nam : Bytes)
  | varsetValue (nam : Bytes)
  | prefork
  | chroot
  | proxy
  | proxyName
  | block
  | options
  | optionEnd
  | source (first : Bool)
  | sourceAddr (first : Bool) (addr : Bytes)
  | sourcePort (first : Bool) (addr : Bytes)
  | hostname (first : Bool)
  | stylesheet (first : Bool)
  | stylesheetPath (first : Bool) (path : Bytes)
  | no (first : Bool)
  | noImage (first : Bool)
  | noNavigation (first : Bool)
  /-- A line that is complete but for its newline. -/
  | line
deriving DecidableEq

namespace State

/-- The tokens an option begins with. -/
def option (first : Bool) : Tok → Option State
  | .SOURCE => some (.source first)
  | .HOSTNAME => some (.hostname first)
  | .STYLESHEET => some (.stylesheet first)
  | .NO => some (.no first)
  | _ => none

/-- Behind an option that is complete. -/
def ended (first : Bool) : State := if first then .options else .optionEnd

/-- Behind an option, where the next token is not part of it. -/
def behind (first : Bool) (t : Tok) : Option (List Action × State) :=
  if t = .char 10 then some ([], .options)
  else if first then
    if t = .char 125 then some ([.close], .line) else (option false t).map ([], ·)
  else none

/-- The actions for a token, and where the parser is behind them. -/
def step (files : Bytes → Option Bytes) : State → Tok → Option (List Action × State)
  | .start, .INCLUDE => some ([], .includeFile)
  | .start, .STRING nam => some ([], .varset nam)
  | .start, .PREFORK => some ([], .prefork)
  | .start, .CHROOT => some ([], .chroot)
  | .start, .PROXY => some ([], .proxy)
  | .start, .char c => if c = 10 then some ([], .start) else none
  | .includeFile, .STRING s => some ([], .includeName s)
  | .includeName name, .STRING s => some ([], .includeName (name ++ s))
  | .includeName name, .char c =>
    if c = 10 then some ([.includeFile name (files name).isSome], .start) else none
  | .varset nam, .char c => if c = 61 then some ([], .varsetValue nam) else none
  | .varsetValue nam, .STRING val => some ([.varset nam val], .line)
  | .prefork, .NUMBER n => some ([.prefork n], .line)
  | .chroot, .STRING path => some ([.chroot path], .line)
  | .proxy, .STRING host => some ([.proxy host], .proxyName)
  | .proxyName, .char c => if c = 123 then some ([], .block) else none
  | .block, t => if t = .char 10 then some ([], .block) else (option true t).map ([], ·)
  | .options, t => behind true t
  | .optionEnd, t => behind false t
  | .source first, .STRING addr => some ([], .sourceAddr first addr)
  | .sourceAddr first addr, t =>
    if t = .PORT then some ([], .sourcePort first addr)
    else (behind first t).map fun r => (.option (.source addr none) :: r.1, r.2)
  | .sourcePort first addr, .NUMBER n =>
    some ([.option (.source addr (some (.number n)))], ended first)
  | .sourcePort first addr, .STRING s =>
    some ([.option (.source addr (some (.string s)))], ended first)
  | .hostname first, .STRING name => some ([.option (.hostname name)], ended first)
  | .stylesheet first, .STRING s => some ([], .stylesheetPath first s)
  | .stylesheetPath first path, .STRING s => some ([], .stylesheetPath first (path ++ s))
  | .stylesheetPath first path, t =>
    (behind first t).map fun r => (.option (.stylesheet path) :: r.1, r.2)
  | .no first, .FOOTER => some ([.option .noFooter], ended first)
  | .no first, .IMAGE => some ([], .noImage first)
  | .no first, .NAVIGATION => some ([], .noNavigation first)
  | .no first, .TLS => some ([.option .noTls], ended first)
  | .noImage first, .PREVIEW => some ([.option .noImagePreview], ended first)
  | .noNavigation first, .BAR => some ([.option .noNavigationBar], ended first)
  | .line, .char c => if c = 10 then some ([], .start) else none
  | _, _ => none

end State

section Parser

variable (lim : Limits) (serv : Bytes → Bytes → Option UInt16) (files : Bytes → Option Bytes)

/-- The actions that end in `YYERROR`. -/
def Action.raises : Action → Bool
  | .includeFile _ opened => !opened
  | .varset nam _ => nam.tail.any isspace
  | .prefork n => n ≤ 0 || procMaxInstances < n
  | .proxy host => lim.hostNameMax + 1 ≤ host.length
  | .option (.source _ tok) =>
    match proxyport serv tok with
    | .error _ => true
    | .ok _ => false
  | _ => false

/-- A file that is included is read next, behind a newline. -/
def Lexer.push (a : Action) (l : Lexer) : Lexer :=
  match a with
  | .includeFile name _ =>
    match files name with
    | some content => { l with file := ⟨[10], content, false⟩, outer := l.file :: l.outer }
    | none => l
  | _ => l

def Lexer.act (l : Lexer) (a : Action) : Option Lexer :=
  if a.raises lim serv then none
  else (Conf.act lim serv l.parse a).map fun parse => { l with parse := parse }.push files a

/-- `yyparse`, which reads so many tokens at most. -/
def yyparse : Nat → State → Lexer → Option Lexer
  | 0, _, _ => none
  | n + 1, s, l => do
    let (t, l) ← l.yylex
    if t = .eof then
      if s = .start then some l else none
    else
      let (as, s) ← s.step files t
      let l ← as.foldlM (Lexer.act lim serv files) l
      yyparse n s l

/-- `parse_config`, for a text that has so many tokens at most. -/
def parseText (n : Nat) (filename : Bytes) (conf : Config) (symhead : List Sym) : Option Parsed :=
  let conf := { conf with scConffile := strlcpy lim.pathMax filename }
  if filename.length ≥ lim.pathMax then some ⟨false, conf, symhead, []⟩
  else
    match files filename with
    | none => some ⟨false, conf, symhead, []⟩
    | some text =>
      (yyparse lim serv files n .start
        ⟨⟨[], text, false⟩, [], false, ⟨conf, none, 0, [], symhead, []⟩⟩).map
        fun l =>
          let p :=
            if l.parse.conf.scProxies.isEmpty then l.parse.yyerror (lit "no proxies defined")
              else l.parse
          ⟨p.errors == 0, p.conf, (freeMacros p.symhead).2, (freeMacros p.symhead).1⟩

end Parser

end Galileo.Conf
