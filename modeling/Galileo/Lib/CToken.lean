import Mathlib.Data.List.Basic
import Galileo.Lib.Bytes

/-!
# The tokens of a C text

A C text is read in two phases here, as a compiler does: a backslash in front of a newline is taken
away together with it, and the characters that are left are cut into tokens, each as long as it can
be, with comments and blanks in between. The scanner does both character by character, so that two
texts can be compared by running it on both: `Scanner` is where it is, `feed` reads one character,
and `cLines` are the tokens of a text, line by line (lines as they are when the continued ones have
been put together; lines without tokens do not count).

The tokens are those of the preprocessor: identifiers and keywords, numbers, string and character
literals with their encoding, the name of a header in an `#include`, and operators. Two operators
have a proper part that is none (`...` and `%:%:`), so what was read of them may have to be given
back as two tokens.
-/

set_option autoImplicit false

namespace Lib

namespace CToken

/-! ## Tokens -/

def isIdStart (c : UInt8) : Bool := isalpha c || c == 95 || 128 ≤ c

def isIdChar (c : UInt8) : Bool := isIdStart c || isdigit c

/-- The operators of more than one character, with the two parts that are no operators. -/
def operators : List Bytes :=
  [lit "->", lit "++", lit "--", lit "<<", lit ">>", lit "<=", lit ">=", lit "==", lit "!=",
    lit "&&", lit "||", lit "..", lit "...", lit "*=", lit "/=", lit "%=", lit "+=", lit "-=",
    lit "<<=", lit ">>=", lit "&=", lit "^=", lit "|=", lit "##", lit "<:", lit ":>", lit "<%",
    lit "%>", lit "%:", lit "%:%", lit "%:%:"]

/-- A number, or what the preprocessor takes for one. -/
def isNumber : Bytes → Bool
  | [] => false
  | [a] => isdigit a
  | a :: b :: _ => isdigit a || (a == 46 && isdigit b)

/-- Whether `c` may be the next character of the token `t`. -/
def mayExtend (t : Bytes) (c : UInt8) : Bool :=
  if (t.head?.map isIdStart).getD false then isIdChar c
  else if isNumber t then
    isIdChar c || c == 46 ||
      ((c == 43 || c == 45) && (t.getLast?.map (fun e => [69, 101, 80, 112].contains e)).getD false)
  else (t == [46] && isdigit c) || operators.contains (t ++ [c])

/-- The tokens in `t` when no character follows that it may have. -/
def finish (t : Bytes) : List Bytes :=
  if t == [] then []
  else if t == lit ".." then [[46], [46]]
  else if t == lit "%:%" then [[37, 58], [37]]
  else [t]

/-- The next character of a word: the tokens that are complete now, and the one that is not. -/
def grow (t : Bytes) (c : UInt8) : List Bytes × Bytes :=
  if mayExtend t c then ([], t ++ [c])
  else if t == lit ".." && isdigit c then ([[46]], [46, c])
  else if t == lit "%:%" && mayExtend [37] c then ([[37, 58]], [37, c])
  else (finish t, [c])

/-- Encodings of a string or character literal. -/
def isEncoding (t : Bytes) : Bool := [lit "L", lit "u", lit "U", lit "u8"].contains t

/-- The tokens of a line behind which `<` begins the name of a header. -/
def isInclude (line : List Bytes) : Bool :=
  [[lit "#", lit "include"], [lit "%:", lit "include"]].contains line

/-! ## The scanner -/

/-- What the scanner is in: code, with the token it has begun; a literal (or the name of a header),
with the character that closes it, its text so far, and whether a backslash was the last of it; a
comment. -/
inductive Mode where
  | code (t : Bytes)
  | literal (close : UInt8) (t : Bytes) (esc : Bool)
  | lineComment
  | comment (star : Bool)
deriving DecidableEq

/-- The lines that are complete, the tokens of the one that is not, and whether a backslash was read
that may stand in front of a newline. `directives` says that there may be directives in the text, so
that it counts where lines end; in a part of a line, such as an expression, there is only one. -/
structure Scanner where
  directives : Bool
  lines : List (List Bytes)
  line : List Bytes
  mode : Mode
  pending : Bool
deriving DecidableEq

namespace Scanner

def start (directives : Bool) : Scanner := ⟨directives, [], [], .code [], false⟩

def put (q : Scanner) (ts : List Bytes) (m : Mode) : Scanner :=
  { q with line := q.line ++ ts, mode := m }

def endLine (q : Scanner) : Scanner :=
  { q with
    lines := if q.directives && q.line != [] then q.lines ++ [q.line] else q.lines
    line := if q.directives then [] else q.line }

def stepCode (q : Scanner) (t : Bytes) (c : UInt8) : Scanner :=
  if c == 10 then (q.put (finish t) (.code [])).endLine
  else if isspace c then q.put (finish t) (.code [])
  else if t == [47] && c == 47 then q.put [] .lineComment
  else if t == [47] && c == 42 then q.put [] (.comment false)
  else if c == 34 || c == 39 then
    if isEncoding t then q.put [] (.literal c (t ++ [c]) false)
    else q.put (finish t) (.literal c [c] false)
  else if q.directives && c == 60 && isInclude (q.line ++ finish t) then
    q.put (finish t) (.literal 62 [60] false)
  else q.put (grow t c).1 (.code (grow t c).2)

/-- A literal ends at its line at the latest. A header name has no escapes. -/
def stepLiteral (q : Scanner) (close : UInt8) (t : Bytes) (esc : Bool) (c : UInt8) : Scanner :=
  if c == 10 then (q.put [t] (.code [])).endLine
  else if !esc && c == close then q.put [t ++ [c]] (.code [])
  else q.put [] (.literal close (t ++ [c]) (!esc && c == 92 && close != 62))

/-- One character, behind the first phase. A comment is a blank, so a newline in it ends no line. -/
def step (q : Scanner) (c : UInt8) : Scanner :=
  match q.mode with
  | .code t => q.stepCode t c
  | .literal close t esc => q.stepLiteral close t esc c
  | .lineComment => if c == 10 then (q.put [] (.code [])).endLine else q
  | .comment star => if star && c == 47 then q.put [] (.code []) else q.put [] (.comment (c == 42))

/-- The backslash that was held back is a character like others. -/
def flush (q : Scanner) : Scanner := if q.pending then step { q with pending := false } 92 else q

/-- One character of the text. -/
def feed (q : Scanner) (c : UInt8) : Scanner :=
  if c == 10 && q.pending then { q with pending := false }
  else if c == 92 then { q.flush with pending := true }
  else q.flush.step c

def feeds (q : Scanner) (s : Bytes) : Scanner := s.foldl feed q

/-- The end of the text. -/
def close (q : Scanner) : Scanner := (q.flush.step 10).endLine

end Scanner

/-- The tokens of a text, line by line. -/
def cLines (s : Bytes) : List (List Bytes) := ((Scanner.start true).feeds s).close.lines

end CToken

end Lib
