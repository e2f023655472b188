import Galileo.Lib.Runs
import Galileo.Spec.Page

/-!
# A gemtext document, group by group

What the body of a translated page should be, said about the document as a whole. It is cut at its
fences first: what stands between two of them, or behind one to the end, is a figure with the words
of the opening fence as its caption, and the lines in it are shown as they are. The other lines are
classified, one by one; then each maximal run of bullets becomes one list, each maximal run of links
one navigation list, and everything else stands for itself.

A link line is classified by the URL it leads to. The code finds that URL by following pointers of
the request, and where one of them is null there is no page (`none`).
-/

set_option autoImplicit false

namespace Galileo

open Lib Lib.Runs

/-! ## Lines -/

/-- A line outside of the figures, with what it shows. -/
inductive TextLine where
  | bullet (item : Bytes)
  | link (url label : Bytes)
  | image (url label : Bytes)
  | quote (words : Bytes)
  | heading1 (words : Bytes)
  | heading2 (words : Bytes)
  | heading3 (words : Bytes)
  | blank
  | paragraph (words : Bytes)
deriving DecidableEq

/-- A line of the document and the memory behind it. -/
abbrev RawLine := Bytes × Bytes

def RawLine.fence (l : RawLine) : Bool := (lit "```").isPrefixOf l.1

def RawLine.caption (l : RawLine) : Bytes := (l.1.drop 3).dropWhile isblank

def linkLine (clt : Client) (line past : Bytes) : Option TextLine :=
  let (url, label, past) := cutLink line past
  match clt.cltPc, linkUrl clt url past with
  | some pc, some url =>
      some (if !pc.noImgprv && matchImageHeur url then .image url label else .link url label)
  | _, _ => none

def blockLine (line : Bytes) : TextLine :=
  match blockKind line with
  | .quote => .quote (line.drop 1)
  | .heading3 => .heading3 (line.drop 3)
  | .heading2 => .heading2 (line.drop 2)
  | .heading1 => .heading1 (line.drop 1)
  | .blank => .blank
  | _ => .paragraph line

def RawLine.classify (clt : Client) (l : RawLine) : Option TextLine :=
  if (lit "* ").isPrefixOf l.1 then some (.bullet (l.1.drop 2))
  else if (lit "=>").isPrefixOf l.1 then linkLine clt (l.1.drop 2) l.2
  else some (blockLine l.1)

namespace TextLine

/-- What a line stands in. -/
def region : TextLine → Region
  | bullet _ => .list
  | link _ _ => .nav
  | _ => .flow

def pieces : TextLine → List Piece
  | bullet item => [text "<li>", .html item, text "</li>"]
  | link url label => [text "<li><a href='", .url url, text "'>", .html label, text "</a></li>"]
  | image url label => tpFigure url label
  | quote words => [text "<blockquote>", .html words, text "</blockquote>"]
  | heading1 words => [text "<h1>", .html words, text "</h1>"]
  | heading2 words => [text "<h2>", .html words, text "</h2>"]
  | heading3 words => [text "<h3>", .html words, text "</h3>"]
  | blank => []
  | paragraph words => [text "<p>", .html words, text "</p>"]

end TextLine

/-! ## Groups -/

/-- Lists and navigation lists are for several lines. -/
def Region.joins : Region → Bool
  | .list | .nav => true
  | .flow | .pre => false

def Region.opens : Region → List Piece
  | .list => [text "<ul>"]
  | .nav => [text "<nav><ul>"]
  | .flow | .pre => []

def Region.closes : Region → List Piece
  | .list => [text "</ul>"]
  | .nav => [text "</ul></nav>"]
  | .pre => [text "</pre></figure>"]
  | .flow => []

/-- Lines outside of the figures: the maximal runs, each in its list. -/
def textPieces (ts : List TextLine) : List Piece :=
  grouped TextLine.region Region.joins Region.opens Region.closes TextLine.pieces ts

/-- A figure, with its caption if it has one. -/
def figurePieces (caption : Bytes) (ls : List RawLine) : List Piece :=
  [text "<figure>"]
    ++ (if caption.isEmpty then [] else [text "<figcaption>", .html caption, text "</figcaption>"])
    ++ [text "<pre>"] ++ (ls.flatMap fun l => [.html l.1, text "\n"]) ++ [text "</pre></figure>"]

/-! ## Documents -/

/-- A part of a document between fences. -/
inductive Part where
  | text (ls : List RawLine)
  | figure (caption : Bytes) (ls : List RawLine)

/-- The lines in front of the first fence, and the parts behind it; `inside` a figure or not. -/
def cutFences (inside : Bool) : List RawLine → List RawLine × List Part
  | [] => ([], [])
  | l :: doc =>
      if l.fence then
        ([], if inside then .text (cutFences false doc).1 :: (cutFences false doc).2
          else .figure l.caption (cutFences true doc).1 :: (cutFences true doc).2)
      else (l :: (cutFences inside doc).1, (cutFences inside doc).2)

def parts (doc : List RawLine) : List Part :=
  .text (cutFences false doc).1 :: (cutFences false doc).2

def Part.pieces (clt : Client) : Part → Option (List Piece)
  | .text ls => (ls.mapM (RawLine.classify clt)).map textPieces
  | .figure caption ls => some (figurePieces caption ls)

def partsPieces (clt : Client) : List Part → Option (List Piece)
  | [] => some []
  | p :: ps => (p.pieces clt).bind fun this => (partsPieces clt ps).map (this ++ ·)

/-- **The body of the page**, from the document as a whole. -/
def groupedBody (clt : Client) (doc : List RawLine) : Option (List Piece) :=
  partsPieces clt (parts doc)

end Galileo
