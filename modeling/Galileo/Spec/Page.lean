import Galileo.Lib.Html
import Galileo.Model.Proxy

/-!
# What a translated page looks like

A document is a sequence of lines, and all that should show in the markup of its page is the
**kind** of each line. Between lines the translation is in one of four *blocks*; a line leaves the
block it does not continue, enters its own, and writes its text. This is what the three bits
`TR_PRE`, `TR_LIST` and `TR_NAV` of `clt_translate` are for, of which the code never sets two.

The page is given as a template in the sense of `Lib.Html`: texts, URLs and labels are holes. Which
template it is depends on the kinds of the lines, on whether the status line gave a language, on
the path of the request and on the configuration, and on nothing else.
-/

set_option autoImplicit false

namespace Galileo

open Lib Lib.Html

/-! ## Lines -/

/-- The kinds of lines. A fence opens or closes a preformatted block; what is on it behind the
backticks is the label. -/
inductive LineKind where
  | bullet
  | image
  | link
  | fence
  | labelledFence
  | preformatted
  | quote
  | heading1
  | heading2
  | heading3
  | blank
  | paragraph
deriving DecidableEq

/-- What is open between two lines. -/
inductive Region where
  | flow
  | pre
  | list
  | nav
deriving DecidableEq

/-- The bits of `clt_translate`. -/
def Region.bits : Region → Translate
  | .flow => ⟨true, false, false, false⟩
  | .pre => ⟨true, true, false, false⟩
  | .list => ⟨true, false, true, false⟩
  | .nav => ⟨true, false, false, true⟩

/-- Fixed text of a page. -/
def fixed (s : String) : Hole := .raw (lit s)

def Region.enter : Region → List Hole
  | .list => [fixed "<ul>"]
  | .nav => [fixed "<nav><ul>"]
  | .flow | .pre => []

def Region.leave : Region → List Hole
  | .flow => []
  | .pre => [fixed "</pre></figure>"]
  | .list => [fixed "</ul>"]
  | .nav => [fixed "</ul></nav>"]

/-- The block after a line. -/
def Region.next : Region → LineKind → Region
  | .pre, .fence | .pre, .labelledFence => .flow
  | .pre, _ => .pre
  | _, .bullet => .list
  | _, .link => .nav
  | _, .fence | _, .labelledFence => .pre
  | b, .preformatted => b
  | _, _ => .flow

/-- What a line writes when its block is open. -/
def LineKind.holes : LineKind → List Hole
  | .bullet => [fixed "<li>", .escaped, fixed "</li>"]
  | .image => [fixed "<figure><a href=\"", .quoted, fixed "\"><img src=\"", .quoted,
      fixed "\" /></a><figcaption>", .escaped, fixed "</figcaption></figure>"]
  | .link => [fixed "<li><a href='", .quoted, fixed "'>", .escaped, fixed "</a></li>"]
  | .fence => [fixed "<figure>", fixed "<pre>"]
  | .labelledFence => [fixed "<figure>", fixed "<figcaption>", .escaped, fixed "</figcaption>",
      fixed "<pre>"]
  | .preformatted => [.escaped, fixed "\n"]
  | .quote => [fixed "<blockquote>", .escaped, fixed "</blockquote>"]
  | .heading1 => [fixed "<h1>", .escaped, fixed "</h1>"]
  | .heading2 => [fixed "<h2>", .escaped, fixed "</h2>"]
  | .heading3 => [fixed "<h3>", .escaped, fixed "</h3>"]
  | .blank => []
  | .paragraph => [fixed "<p>", .escaped, fixed "</p>"]

/-- All a line writes. -/
def Region.holes : Region → LineKind → List Hole
  | .pre, .fence | .pre, .labelledFence => Region.leave .pre
  | .pre, _ => LineKind.holes .preformatted
  | b, k => (if b.next k = b then [] else b.leave ++ (b.next k).enter) ++ k.holes

/-- What the lines of a document write, and the block after them. -/
def Region.run (b : Region) : List LineKind → List Hole × Region
  | [] => ([], b)
  | k :: ks => (b.holes k ++ ((b.next k).run ks).1, ((b.next k).run ks).2)

/-- The elements that are open between two lines, from the inside. -/
def Region.stack : Region → List Bytes
  | .flow => [lit "body", lit "html"]
  | .pre => [lit "pre", lit "figure", lit "body", lit "html"]
  | .list => [lit "ul", lit "body", lit "html"]
  | .nav => [lit "ul", lit "nav", lit "body", lit "html"]

/-- **Every line keeps the page well-nested.** -/
theorem Region.effect_holes (b : Region) (k : LineKind) :
    effect (b.holes k) b.stack = some (b.next k).stack := by
  cases b <;> cases k <;> decide

theorem Region.effect_leave (b : Region) : effect b.leave b.stack = some Region.flow.stack := by
  cases b <;> decide

theorem Region.effect_run (b : Region) (ks : List LineKind) :
    effect (b.run ks).1 b.stack = some (b.run ks).2.stack := by
  induction ks generalizing b with
  | nil => rfl
  | cons k ks ih => exact effect_append (b.effect_holes k) (ih (b.next k))

/-! ## The kind of a line -/

def fenceKind (line : Bytes) : LineKind :=
  if ((line.drop 3).dropWhile isblank).isEmpty then .fence else .labelledFence

/-- Whether a link is shown as an image is decided by the URL it leads to. Without one the code
follows a null pointer. -/
def linkKind (clt : Client) (line past : Bytes) : Option LineKind :=
  let (url, _, past) := cutLink line past
  match clt.cltPc, linkUrl clt url past with
  | some pc, some url => some (if !pc.noImgprv && matchImageHeur url then .image else .link)
  | _, _ => none

def blockKind (line : Bytes) : LineKind :=
  if line.head? == some 62 then .quote
  else if (lit "###").isPrefixOf line then .heading3
  else if (lit "##").isPrefixOf line then .heading2
  else if (lit "#").isPrefixOf line then .heading1
  else if line.isEmpty then .blank
  else .paragraph

/-- The kind of a line. Within a preformatted block there are only fences and text. -/
def lineKind (clt : Client) (b : Region) (line past : Bytes) : Option LineKind :=
  if b = .pre then
    some (if (lit "```").isPrefixOf line then fenceKind line else .preformatted)
  else if (lit "* ").isPrefixOf line then some .bullet
  else if (lit "=>").isPrefixOf line then linkKind clt (line.drop 2) past
  else if (lit "```").isPrefixOf line then some (fenceKind line)
  else some (blockKind line)

/-- The kinds of the lines of a document. Each line comes with the memory behind it. -/
def documentKinds (clt : Client) : Region → List (Bytes × Bytes) → Option (List LineKind)
  | _, [] => some []
  | b, p :: doc =>
      match lineKind clt b p.1 p.2 with
      | none => none
      | some k => (documentKinds clt (b.next k) doc).map (k :: ·)

/-! ## Head and foot -/

/-- `tp_navigation`. -/
def navigationHoles (home : Bool) : List Hole :=
  [fixed "<header><nav><ul><li><a href=\"", .escaped, fixed "\">/ Root</a></li><li><a href=\"",
    .escaped, .escaped, .escaped, fixed "\">↑ Up</a></li>"]
    ++ (if home then [fixed "<li><a href=\"", .escaped, .escaped, fixed "\">🏠 ", .escaped,
          fixed "' home</a></li>"]
        else [])
    ++ [fixed "</ul></nav></header>"]

/-- `tp_head` without a title: whether there is a language, a stylesheet, a capsule, a bar and in it
a link to the user's home. -/
def headHoles (lang stylesheet capsule bar home : Bool) : List Hole :=
  [fixed "<!doctype html><html"]
    ++ (if lang then [fixed " ", fixed "lang=\"", .escaped, fixed "\""] else [])
    ++ [fixed "><head><meta name=\"viewport\" content=\"initial-scale=1\" />"]
    ++ (if stylesheet then [fixed "<link rel=\"stylesheet\" href=\"", .quoted, fixed "\" />"]
        else [fixed "<link rel=\"stylesheet\" href=\"", .escaped, fixed "galileo.css\" />"])
    ++ [fixed "<title>"]
    ++ (if capsule then [fixed "gemini://", .escaped, .escaped] else [])
    ++ [fixed "</title></head><body>"]
    ++ (if bar then navigationHoles home else [])

/-- `tp_foot`. -/
def footHoles (footer : Bool) : List Hole :=
  (if footer then [fixed "<footer><hr /><dl><dt>Original URL:</dt><dd><a href=\"gemini://",
      .quoted, .quoted, fixed "\">gemini://", .escaped, .escaped,
      fixed "</a></dd></dl></footer>"]
    else [])
    ++ [fixed "</body></html>"]

theorem effect_head : ∀ lang stylesheet capsule bar home : Bool,
    effect (headHoles lang stylesheet capsule bar home) [] = some Region.flow.stack := by
  decide +kernel

theorem effect_foot : ∀ footer : Bool, effect (footHoles footer) Region.flow.stack = some [] := by
  decide

/-! ## Pages -/

/-- Whether `tp_navigation` has a link to the user's home. -/
def hasHome (path : Bytes) : Bool :=
  match navHome path with
  | some (home, _) => !home.isEmpty
  | none => false

/-- The template of a page. -/
def pageHoles (path : Option Bytes) (pc : Option ProxyConfig) (lang : Bool)
    (ks : List LineKind) : List Hole :=
  headHoles lang (pc.any fun pc => !pc.stylesheet.isEmpty) pc.isSome
      (path.isSome && !pc.any (·.noNavbar)) (hasHome (path.getD []))
    ++ (Region.flow.run ks).1 ++ (Region.flow.run ks).2.leave
    ++ footHoles (pc.any fun pc => !pc.noFooter)

/-- **A page closes what it opens.** -/
theorem effect_page (path : Option Bytes) (pc : Option ProxyConfig) (lang : Bool)
    (ks : List LineKind) : effect (pageHoles path pc lang ks) [] = some [] := by
  have hlines := Region.effect_run .flow ks
  have hleave := Region.effect_leave (Region.flow.run ks).2
  exact effect_append (effect_append (effect_append (effect_head _ _ _ _ _) hlines) hleave)
    (effect_foot _)

end Galileo
