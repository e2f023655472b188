import Mathlib.Algebra.GroupWithZero.Nat
import Galileo.Lib.Blanks
import Galileo.Model.Compiler

/-!
# The lexer of the template compiler (`yylex` of `template/parse.y`)

What `yylex` does depends on where in a template it is. Between two blocks it looks for a tag;
inside a block and outside of tags (`in_define`, `block == 0`) a line of text is one `STRING`;
between `{!` and `!}` a line of C is one; between `{{` and `}}` a `STRING` is a word. All characters
come through `lgetc`, which makes one space of each run of blanks **before** it is known which of
these they are in, and characters that turn out not to be a tag are pushed back with `lungetc`.

The loops have fuel, and `yylex` gives them more than there are characters to read (`Lexer.room`).
Line numbers are only used in messages and in the `#line` directives, and are left out, as is
`expanding`, which nothing reads; so is the branch of `lgetc` for a quote, which is never called
here.
-/

set_option autoImplicit false

namespace Galileo

open Lib

namespace Tmpl

/-- What is read of `struct file`. The top of `ungetbuf` is its first element. -/
structure File where
  ungetbuf : Bytes
  stream : Bytes
  eofReached : Bool
deriving DecidableEq

/-- The variables of the lexer: `file`, the files it is included by (`topfile` is the last of them),
`in_define` and `block`, and the messages of `yyerror`. -/
structure Lexer where
  file : File
  outer : List File
  inDefine : Bool
  block : UInt8
  errors : List String
deriving DecidableEq

/-- What `yylex` returns; `eof` is its 0. -/
inductive Lexeme where
  | token (t : Token)
  | INCLUDE
  | ERROR
  | eof
deriving DecidableEq

/-- The size of `buf`. -/
def bufSize : Nat := 8096

/-! ## Characters -/

/-- `START_EXPAND` and `DONE_EXPAND`. -/
def isExpand (b : UInt8) : Bool := b == 1 || b == 2

def File.igetc (f : File) : Option UInt8 × File :=
  match f.ungetbuf.dropWhile isExpand with
  | c :: u => (some c, { f with ungetbuf := u })
  | [] =>
    match f.stream.dropWhile isExpand with
    | c :: s => (some c, { f with ungetbuf := [], stream := s })
    | [] => (none, { f with ungetbuf := [], stream := [] })

/-- The loop of `lgetc` at the end of a file: `popfile` until a file has a character. -/
def popfiles : File → List File → Option UInt8 × File × List File
  | f, [] => (none, f, [])
  | _, g :: outer =>
    match g.igetc with
    | (some c, g) => (some c, g, outer)
    | (none, g) => popfiles g outer

namespace Lexer

def yyerror (l : Lexer) (msg : String) : Lexer := { l with errors := l.errors ++ [msg] }

/-- `lgetc(0)`. The blanks behind a blank are read off the stream, whatever was pushed back. -/
def lgetc (l : Lexer) : Option UInt8 × Lexer :=
  match l.file.igetc with
  | (some c, f) =>
    if isblank c then
      (some 32, { l with file := { f with stream := f.stream.dropWhile isblank } })
    else (some c, { l with file := f })
  | (none, f) =>
    if f.eofReached then
      match popfiles f l.outer with
      | (c, f, outer) => (c, { l with file := f, outer := outer })
    else (some 10, { l with file := { f with eofReached := true } })

/-- Pushing back `EOF` does nothing. -/
def lungetc (l : Lexer) : Option UInt8 → Lexer
  | none => l
  | some c => { l with file := { l.file with ungetbuf := c :: l.file.ungetbuf } }

/-- More rounds than a loop of the lexer can make. -/
def room (l : Lexer) : Nat :=
  2 * ((l.file :: l.outer).map fun f => f.ungetbuf.length + f.stream.length + 1).sum + 2

/-- `while (p(c = lgetc(0)))`: the first character that is not skipped. -/
def skip (p : UInt8 → Bool) : Nat → Lexer → Option UInt8 × Lexer
  | 0, l => (none, l)
  | n + 1, l =>
    match l.lgetc with
    | (some c, l) => if p c then skip p n l else (some c, l)
    | (none, l) => (none, l)

def findeol (l : Lexer) : Lexeme × Lexer := (.ERROR, (l.skip (· != 10) l.room).2)

/-! ## Words and lines -/

end Lexer

/-- How the loops over the characters of a `STRING` end. -/
inductive Ended where
  | text (buf : Bytes) (l : Lexer)
  | tooLong (l : Lexer)
  | eof (quote : Bool) (l : Lexer)
deriving DecidableEq

/-- The loop over a line of text and the one over a line of C. They are the same: `mark` is the
character a tag begins with, `tag` says of the next one whether it is a tag, and `starting`
(`ending`) that a `mark` was read and is not in `buf` yet. -/
def lineLoop (mark : UInt8) (tag : UInt8 → Bool) :
    Nat → Bool → Option UInt8 → Bytes → Lexer → Ended
  | 0, _, _, _, l => .eof false l
  | _ + 1, _, none, _, l => .eof false l
  | n + 1, starting, some c, buf, l =>
    if starting then
      if tag c then .text buf ((l.lungetc (some c)).lungetc (some mark))
      else if bufSize ≤ buf.length + 1 then .tooLong (l.lungetc (some c))
      else
        lineLoop mark tag n false (l.lungetc (some c)).lgetc.1 (buf ++ [mark])
          (l.lungetc (some c)).lgetc.2
    else if c == mark then lineLoop mark tag n true l.lgetc.1 buf l.lgetc.2
    else if c == 10 then .text buf l
    else if bufSize ≤ buf.length + 1 then .tooLong l
    else lineLoop mark tag n false l.lgetc.1 (buf ++ [c]) l.lgetc.2

/-- The loop over a word between `{{` and `}}`. The quote is looked at before the brace that was
held back, and a blank or a bar before both. -/
def wordLoop (block : UInt8) : Nat → Bool → Bool → Option UInt8 → Bytes → Lexer → Ended
  | 0, quote, _, _, _, l => .eof quote l
  | _ + 1, quote, _, none, _, l => .eof quote l
  | n + 1, quote, ending, some c, buf, l =>
    if !quote && isspace c then .text buf l
    else
      let quote := if c == 34 then !quote else quote
      if !quote && c == 124 then .text buf (l.lungetc (some c))
      else if ending then
        if c == 125 then .text buf ((l.lungetc (some c)).lungetc (some 125))
        else if bufSize ≤ buf.length + 1 then .tooLong (l.lungetc (some c))
        else
          wordLoop block n quote false (l.lungetc (some c)).lgetc.1 (buf ++ [block])
            (l.lungetc (some c)).lgetc.2
      else if !quote && c == 125 then wordLoop block n quote true l.lgetc.1 buf l.lgetc.2
      else if bufSize ≤ buf.length + 1 then .tooLong l
      else wordLoop block n quote false l.lgetc.1 (buf ++ [c]) l.lgetc.2

/-- The table of `lookup`. -/
def keywords : List (Bytes × Lexeme) :=
  [(lit "define", .token .DEFINE), (lit "else", .token .ELSE), (lit "end", .token .END),
   (lit "finally", .token .FINALLY), (lit "for", .token .FOR), (lit "if", .token .IF),
   (lit "include", .INCLUDE), (lit "printf", .token .PRINTF), (lit "render", .token .RENDER),
   (lit "tailq-foreach", .token .TQFOREACH), (lit "unsafe", .token .UNSAFE),
   (lit "urlescape", .token .URLESCAPE), (lit "while", .token .WHILE)]

/-- `lookup`, with the `strdup` of a `STRING`. -/
def lookup (s : Bytes) : Lexeme := (keywords.lookup s).getD (.token (.STRING s))

/-- What `yylex` does when the loop is over: `buf` is a C string, and the messages are the
loop's. -/
def Ended.lexeme (value : Bytes → Lexeme) (tooLong eof quoted : String) : Ended → Lexeme × Lexer
  | .text buf l => (value (cstr buf), l)
  | .tooLong l => (l.yyerror tooLong).findeol
  | .eof quote l => (.eof, l.yyerror (if quote then quoted else eof))

namespace Lexer

/-- A line of text, from its first character `c` on; `n` is the fuel. -/
def rawText (n : Nat) (c : UInt8) (l : Lexer) : Lexeme × Lexer :=
  (lineLoop 123 (fun c => c == 33 || c == 123) n false (some c) [] l).lexeme
    (fun s => .token (.STRING s)) "string too long" "unterminated block" "unterminated block"

/-- A line of C between the marks of a verbatim block. -/
def verbatimLine (n : Nat) (c : UInt8) (l : Lexer) : Lexeme × Lexer :=
  (lineLoop 33 (· == 125) n false (some c) [] l).lexeme
    (fun s => .token (.STRING s)) "line too long" "unterminated block" "unterminated block"

/-- A bar or a word. -/
def word (n : Nat) (c : UInt8) (l : Lexer) : Lexeme × Lexer :=
  if c == 124 then (.token .BAR, l)
  else
    (wordLoop l.block n false false (some c) [] l).lexeme lookup
      "string too long" "unterminated block" "unterminated quote"

/-- From the first character that is no blank on; `newblock` is where `goto newblock` goes to. -/
def content (n : Nat) (newblock : Lexer → Lexeme × Lexer) (c : UInt8) (l : Lexer) :
    Lexeme × Lexer :=
  if l.inDefine && l.block == 0 then if c == 123 then newblock l else l.rawText n c
  else if l.block == 33 then l.verbatimLine n c
  else l.word n c

/-- From the loop that skips blanks and newlines on. -/
def scan (newblock : Lexer → Lexeme × Lexer) (l : Lexer) : Lexeme × Lexer :=
  match l.skip (fun c => isblank c || c == 10) l.room with
  | (none, l') => (.eof, l'.yyerror "unterminated block")
  | (some c, l') =>
    if l'.block != 0 && c == l'.block then
      match l'.lgetc with
      | (some 125, l'') =>
        (.token (if l'.block == 33 then .BANG else .CLOSE), { l'' with block := 0 })
      | (c', l'') => content l'.room newblock c (l''.lungetc c')
    else content l'.room newblock c l'

/-- From `newblock:` on. A character that does not make a tag is not put anywhere. -/
def newblock : Nat → Lexer → Lexeme × Lexer
  | 0, l => (.eof, l)
  | n + 1, l =>
    match l.lgetc with
    | (some 123, l) => (.token .OPEN, { l with block := 125 })
    | (some 33, l) => (.token .BANG, { l with block := 33 })
    | (_, l) => scan (newblock n) l

def yylex (l : Lexer) : Lexeme × Lexer :=
  if !l.inDefine && l.block == 0 then
    match l.skip (· != 123) l.room with
    | (none, l) => (.eof, l)
    | (some _, l) => newblock l.room l
  else scan (newblock l.room) l

/-- The `STRING`s `yylex` returns before another token, as `nstring` and `verbatim1` read them. -/
def lexStrings : Nat → Lexer → List Bytes × Lexeme × Lexer
  | 0, l => ([], .eof, l)
  | n + 1, l =>
    match l.yylex with
    | (.token (.STRING s), l) => (s :: (lexStrings n l).1, (lexStrings n l).2)
    | (t, l) => ([], t, l)

/-- The words and bars `yylex` returns before another token, as `string` and `stringy` read them. -/
def lexWords : Nat → Lexer → List Token × Lexeme × Lexer
  | 0, l => ([], .eof, l)
  | n + 1, l =>
    match l.yylex with
    | (.token (.STRING s), l) => (.STRING s :: (lexWords n l).1, (lexWords n l).2)
    | (.token .BAR, l) => (.BAR :: (lexWords n l).1, (lexWords n l).2)
    | (t, l) => ([], t, l)

end Lexer

end Tmpl

end Galileo
