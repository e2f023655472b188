import Galileo.Model.Fragments
import Galileo.Model.Output

/-!
# Translating gemtext (`proxy.c`, first part)

`gemtext_translate_line` turns one line of `text/gemini` into HTML, remembering in three bits of
`clt_translate` which of a preformatted block, a list and a navigation list is open.

Two things about C strings matter here and are kept. A link line is cut *in place*: the blank
after the URL becomes its terminator, and the label follows it in the same block of memory. And
`proxy_resurl` reads `url + 1` also when `url` is empty, that is, **past the terminator**: what it
finds there is the rest of the line when the line was cut, and otherwise memory that belongs to
somebody else. The argument `past` is the C string that starts there.

A null pointer that is followed ends the process; `none` stands for that.
-/

set_option autoImplicit false

namespace Galileo

open Lib

/-! ## Links -/

/-- What may follow an authority: the end, `/`, `?`, `#`. -/
def authorityEnd (u : Bytes) : Bool :=
  match u with
  | [] => true
  | b :: _ => b == 47 || b == 63 || b == 35

/-- `portok`: where `*url` is afterwards, if it returns 1. -/
def portok (port url : Bytes) : Option Bytes :=
  if authorityEnd url then some url
  else match url with
    | 58 :: u =>
        if port.isPrefixOf u && authorityEnd (u.drop port.length) then some (u.drop port.length)
        else none
    | _ => none

/-- The part of `proxy_resurl` in front of the "maybe it's an absolute path?" comment: the URL
with the capsule's own authority cut off, or `none` for `goto done`. -/
def stripAuthority (name port url : Bytes) : Option Bytes :=
  let authority (tmp : Bytes) :=
    if name.isPrefixOf tmp then portok port (tmp.drop name.length) else none
  if (lit "//").isPrefixOf url then authority (url.drop 2)
  else if (lit "gemini://").isPrefixOf url then authority (url.drop 9)
  else if (lit "://").isPrefixOf (url.dropWhile fun b => isalpha b || b == 43) then none
  else some url

/-- `strlcpy(buf, src, len) >= len`, and `buf` if not. -/
def copyFits (len : Nat) (src : Bytes) : Option Bytes := if src.length ≥ len then none else some src

/-- `proxy_resurl(clt, url, buf, len)`: `some none` is a return of `-1`. -/
def proxyResurl (clt : Client) (url past : Bytes) (len : Nat) : Option (Option Bytes) :=
  match clt.cltServerName with
  | none => some none
  | some name =>
      if len = 0 then some none
      else match clt.cltPc with
        | none => none
        | some pc =>
            match stripAuthority name pc.proxyPort url with
            | none => some (copyFits len url)
            | some url =>
                if url.isEmpty || url.head? == some 47 then
                  match clt.cltScriptName with
                  | none => none
                  | some prfx =>
                      -- `url + 1` of an empty string is past its terminator
                      some (copyFits len (prfx ++ if url.isEmpty then past else url.tail))
                else some (copyFits len url)

/-- `match_image_heur`: `fnmatch("*.jpg", url, 0)` and so on. -/
def matchImageHeur (url : Bytes) : Bool :=
  [".jpg", ".jpeg", ".gif", ".png", ".svg", ".webp"].any fun s => (lit s).isSuffixOf url

/-- A link line behind its `=>`, cut in place: the URL, the label, and what is past the URL's
terminator. -/
def cutLink (line past : Bytes) : Bytes × Bytes × Bytes :=
  let line := line.dropWhile isblank
  let url := line.takeWhile fun b => !isblank b
  match line.dropWhile fun b => !isblank b with
  | [] => (url, url, past)
  | _ :: rest =>
      let label := rest.dropWhile isblank
      (url, if label.isEmpty then url else label, rest)

/-- The URL a link line leads to. -/
def linkUrl (clt : Client) (url past : Bytes) : Option Bytes :=
  match proxyResurl clt url past 1025 with
  | none => none
  | some (some buf) => some buf
  | some none => some url

/-! ## Lines -/

/-- The link branch of `gemtext_translate_line`. -/
def gemtextLink (clt : Client) (tr : Translate) (line past : Bytes) :
    Option (List Piece × Translate) :=
  let (url, label, past) := cutLink line past
  match clt.cltPc, linkUrl clt url past with
  | some pc, some url =>
      if !pc.noImgprv && matchImageHeur url then
        some ((if tr.nav then [text "</ul></nav>"] else []) ++ tpFigure url label,
          { tr with nav := false })
      else
        some ((if tr.nav then [] else [text "<nav><ul>"])
          ++ [text "<li><a href='", .url url, text "'>", .html label, text "</a></li>"],
          { tr with nav := true })
  | _, _ => none

/-- What is left when the line is none of bullet, link and fence. -/
def gemtextBlock (line : Bytes) : List Piece :=
  if line.head? == some 62 then
    [text "<blockquote>", .html (line.drop 1), text "</blockquote>"]
  else if (lit "###").isPrefixOf line then [text "<h3>", .html (line.drop 3), text "</h3>"]
  else if (lit "##").isPrefixOf line then [text "<h2>", .html (line.drop 2), text "</h2>"]
  else if (lit "#").isPrefixOf line then [text "<h1>", .html (line.drop 1), text "</h1>"]
  else if line.isEmpty then []
  else [text "<p>", .html line, text "</p>"]

/-- `gemtext_translate_line`: what it writes and the bits it leaves in `clt_translate`. -/
def gemtextTranslateLine (clt : Client) (line past : Bytes) : Option (List Piece × Translate) :=
  let tr := clt.cltTranslate
  if tr.pre then
    if (lit "```").isPrefixOf line then some (tpPreClose, { tr with pre := false })
    else some ([.html line, text "\n"], tr)
  else if (lit "* ").isPrefixOf line then
    some ((if tr.nav then [text "</ul></nav>"] else [])
      ++ (if tr.list then [] else [text "<ul>"])
      ++ [text "<li>", .html (line.drop 2), text "</li>"],
      { tr with nav := false, list := true })
  else
    let closeList := if tr.list then [text "</ul>"] else []
    let tr := { tr with list := false }
    if (lit "=>").isPrefixOf line then
      (gemtextLink clt tr (line.drop 2) past).map fun r => (closeList ++ r.1, r.2)
    else
      let closeNav := if tr.nav then [text "</ul></nav>"] else []
      let tr := { tr with nav := false }
      if (lit "```").isPrefixOf line then
        some (closeList ++ closeNav ++ tpPreOpen ((line.drop 3).dropWhile isblank),
          { tr with pre := true })
      else some (closeList ++ closeNav ++ gemtextBlock line, tr)

/-! ## The loop over the input -/

/-- A null pointer was followed: the process is gone, and the connection with it. -/
def crash {α : Type} : CltM α := do
  Prog.modify fun x => { x with fcgi := fcgiError x.fcgi }
  Prog.fail

/-- A line as `evbuffer_readln` returns it, read as a C string, and the C string past its
terminator: the rest of the line if it has a NUL in it, else whatever (`oob`) lies behind it. -/
def cstrPast (oob line : Bytes) : Bytes × Bytes :=
  match line.dropWhile (· != 0) with
  | [] => (line, cstr oob)
  | _ :: rest => (cstr line, cstr rest)

/-- `proxy_translate_gemtext`. Every round takes a line out of the buffer, so as many rounds as
there are bytes are enough. `oob` gives the memory behind a line, which may be different for each
line. -/
def translateLoop (oob : Bytes → Bytes) : Nat → CltM Unit
  | 0 => pure ()
  | n + 1 => do
      let x ← Prog.get
      match x.clt.cltBev with
      | none => pure ()
      | some bev =>
          match readlnCrlf bev.input with
          | none => pure ()
          | some (line, rest) =>
              setClt fun c => { c with cltBev := some { bev with input := rest } }
              match gemtextTranslateLine x.clt (cstrPast (oob bev.input) line).1
                  (cstrPast (oob bev.input) line).2 with
              | none => crash
              | some (ps, tr) =>
                  setClt fun c => { c with cltTranslate := tr }
                  emit ps
                  translateLoop oob n

def proxyTranslateGemtext (oob : Bytes → Bytes) : CltM Unit := do
  let x ← Prog.get
  match x.clt.cltBev with
  | none => pure ()
  | some bev => translateLoop oob bev.input.length

end Galileo
