import Galileo.Lib.Bytes
import Galileo.Lib.Prog

/-!
# The template runtime (`template/tmpl.c`)

`struct template` is a fixed buffer in front of a write callback. The callback and its argument
are whatever the program that uses the runtime says they are, so everything here is generic in
the callback's state `σ`: a callback is a `Prog σ Unit` for each block of bytes handed to it, and
it fails exactly when the C callback returns `-1`.

A `Template` carries the two facts the write loop rests on: there is room for at least one byte,
and what is pending fits.

The functions the template compiler generates are sequences of three kinds of statements, all of
the shape `if ((tp_ret = f(tp, ...)) == -1) goto err;`. `Piece` is one such statement with its
argument evaluated, and `render` runs a list of them.
-/

set_option autoImplicit false

namespace Galileo

open Lib

/-- `struct template`: `tpBuf` holds the first `tp_len` bytes of `tp_buf`. -/
@[ext] structure Template where
  tpBuf : Bytes
  tpCap : Nat
  cap_pos : 0 < tpCap
  len_le : tpBuf.length ≤ tpCap
deriving DecidableEq

namespace Template

def avail (tp : Template) : Nat := tp.tpCap - tp.tpBuf.length

/-- `tp->tp_len = 0`. -/
def clear (tp : Template) : Template := ⟨[], tp.tpCap, tp.cap_pos, Nat.zero_le _⟩

/-- The `memcpy` of `tp_write`: as much of `str` as there is room for. -/
def copy (tp : Template) (str : Bytes) : Template :=
  ⟨tp.tpBuf ++ str.take tp.avail, tp.tpCap, tp.cap_pos, by
    have := tp.len_le
    simp only [avail, List.length_append, List.length_take]
    omega⟩

end Template

/-- `template(arg, writefn, buf, siz)`. -/
def template (siz : Nat) (h : 0 < siz) : Template := ⟨[], siz, h, Nat.zero_le _⟩

/-- Code that runs with a template in hand. -/
abbrev TpM (σ : Type) := Prog (Template × σ)

section Runtime

variable {σ : Type} (wr : Bytes → Prog σ Unit)

def templateFlush : TpM σ Unit := fun x =>
  if x.1.tpBuf.isEmpty then (some (), x)
  else match wr x.1.tpBuf x.2 with
    | (none, s) => (none, (x.1, s))
    | (some _, s) => (some (), (x.1.clear, s))

/-- The loop of `tp_write`. Every round copies at least one byte, so as many rounds as there are
bytes are enough. -/
def tpWriteLoop : Nat → Bytes → TpM σ Unit
  | 0, _ => pure ()
  | n + 1, str =>
      if str.isEmpty then pure ()
      else do
        let x ← Prog.get
        if x.1.avail = 0 then templateFlush wr
        let x ← Prog.get
        Prog.modify fun x => (x.1.copy str, x.2)
        tpWriteLoop n (str.drop x.1.avail)

def tpWrite (str : Bytes) : TpM σ Unit := tpWriteLoop wr str.length str

/-- The bytes `tp_htmlescape` writes for one byte. -/
def htmlescapeByte (b : UInt8) : Bytes :=
  if b == 60 then lit "&lt;"
  else if b == 62 then lit "&gt;"
  else if b == 38 then lit "&amp;"
  else if b == 34 then lit "&quot;"
  else if b == 39 then lit "&apos;"
  else [b]

def tpHtmlescape (str : Bytes) : TpM σ Unit :=
  Prog.each (fun b => tpWrite wr (htmlescapeByte b)) str

/-- The bytes `tp_urlescape` does not let through. -/
def urlUnsafe (b : UInt8) : Bool := iscntrl b || isspace b || b == 39 || b == 34 || b == 92

/-- `snprintf(tmp, sizeof(tmp), "%%%2X", *str)`, before the cut to `sizeof(tmp)`: `*str` is a
`char`, which is sign-extended on its way to `%X`. -/
def urlescapeTmp (b : UInt8) : Bytes :=
  lit "%" ++ fmtHex2 (if b < 128 then b.toNat else 0xFFFFFF00 + b.toNat)

/-- The loop stops, successfully, at the first escape that does not fit `tmp[4]`. -/
def tpUrlescape : Bytes → TpM σ Unit
  | [] => pure ()
  | b :: str =>
      if urlUnsafe b then
        if (urlescapeTmp b).length ≥ 4 then pure ()
        else do
          tpWrite wr (urlescapeTmp b)
          tpUrlescape str
      else do
        tpWrite wr [b]
        tpUrlescape str

end Runtime

/-! ## Generated code -/

/-- One statement of a generated template function: raw text (`tp_write`), an expression with the
default escaping (`tp_htmlescape`), an expression with `urlescape` (`tp_urlescape`). -/
inductive Piece where
  | raw (s : Bytes)
  | html (s : Bytes)
  | url (s : Bytes)
deriving DecidableEq

def Piece.emit {σ : Type} (wr : Bytes → Prog σ Unit) : Piece → TpM σ Unit
  | .raw s => tpWrite wr s
  | .html s => tpHtmlescape wr s
  | .url s => tpUrlescape wr s

def render {σ : Type} (wr : Bytes → Prog σ Unit) (ps : List Piece) : TpM σ Unit :=
  Prog.each (Piece.emit wr) ps

end Galileo
