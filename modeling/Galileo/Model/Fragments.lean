import Galileo.Model.State

/-!
# The page fragments (`fragments.tmpl`)

Each block of `fragments.tmpl` as the list of template statements it compiles to, with its
arguments evaluated: `text` for the text between the tags (leading blanks and newlines are not
part of a template's text), `html` for `{{ e }}`, `url` for `{{ e | urlescape }}`, and the list of
the other block for `{{ render }}`. An escaper that is passed `NULL` writes nothing, hence the
`getD []`.
-/

set_option autoImplicit false

namespace Galileo

open Lib

/-- Text of the template file. -/
def text (s : String) : Piece := .raw (lit s)

/-- `dirname(3)`. -/
def dirname (path : Bytes) : Bytes :=
  let dir := (path.reverse.dropWhile (· == 47)).dropWhile (· != 47)
  if dir.isEmpty then (if path.isEmpty || path.any (· != 47) then lit "." else lit "/")
  else if (dir.dropWhile (· == 47)).isEmpty then lit "/"
  else (dir.dropWhile (· == 47)).reverse

/-- The locals `home` and `usr` of `tp_navigation`: when the path has a `/~` and a `/` after it,
the path without its first byte up to and including that `/`, and what is between the two. -/
def navHome (path : Bytes) : Option (Bytes × Bytes) :=
  match strstr (lit "/~") path with
  | none => none
  | some tilde =>
      match strchr 47 (tilde.drop 1) with
      | none => none
      | some t =>
          some (strlcpy geminiMaxlen ((path.take (path.length - t.length + 1)).drop 1),
            strlcpy 64 ((tilde.take (tilde.length - t.length)).drop 2))

def tpNavigation (clt : Client) : List Piece :=
  let prfx := clt.cltScriptName.getD []
  let path := clt.cltPathInfo.getD []
  let dname := dirname (strlcpy geminiMaxlen (path.drop 1))
  let up := if dname == lit "." then ([], []) else (dname, lit "/")
  let home := match navHome path with
    | some (home, usr) =>
        if home.isEmpty then []
        else [text "<li><a href=\"", .html prfx, .html home, text "\">🏠 ", .html usr,
          text "' home</a></li>"]
    | none => []
  [text "<header><nav><ul><li><a href=\"", .html prfx, text "\">/ Root</a></li><li><a href=\"",
    .html prfx, .html up.1, .html up.2, text "\">↑ Up</a></li>"]
    ++ home ++ [text "</ul></nav></header>"]

def tpHead (clt : Client) (lang : Bytes) (title : Option Bytes) : List Piece :=
  let stylesheet := match clt.cltPc with
    | some pc => pc.stylesheet
    | none => []
  let hidenav := match clt.cltPc with
    | some pc => pc.noNavbar
    | none => false
  [text "<!doctype html><html"]
    ++ (if lang.isEmpty then [] else [.html (lit " "), text "lang=\"", .html lang, text "\""])
    ++ [text "><head><meta name=\"viewport\" content=\"initial-scale=1\" />"]
    ++ (if stylesheet.isEmpty then
          [text "<link rel=\"stylesheet\" href=\"", .html (clt.cltScriptName.getD []),
            text "galileo.css\" />"]
        else [text "<link rel=\"stylesheet\" href=\"", .url stylesheet, text "\" />"])
    ++ [text "<title>"]
    ++ (match title, clt.cltPc with
        | some t, _ => [.html t]
        | none, some pc =>
            [text "gemini://", .html pc.proxyName, .html (clt.cltPathInfo.getD [])]
        | none, none => [])
    ++ [text "</title></head><body>"]
    ++ (if clt.cltPathInfo.isSome && !hidenav then tpNavigation clt else [])

def tpFoot (clt : Client) : List Piece :=
  let path := clt.cltPathInfo.getD []
  (match clt.cltPc with
    | some pc =>
        if pc.noFooter then []
        else [text "<footer><hr /><dl><dt>Original URL:</dt><dd><a href=\"gemini://",
          .url pc.proxyName, .url path, text "\">gemini://", .html pc.proxyName, .html path,
          text "</a></dd></dl></footer>"]
    | none => [])
    ++ [text "</body></html>"]

def tpFigure (url label : Bytes) : List Piece :=
  [text "<figure><a href=\"", .url url, text "\"><img src=\"", .url url,
    text "\" /></a><figcaption>", .html label, text "</figcaption></figure>"]

def tpPreOpen (label : Bytes) : List Piece :=
  [text "<figure>"]
    ++ (if label.isEmpty then []
        else [text "<figcaption>", .html label, text "</figcaption>"])
    ++ [text "<pre>"]

def tpPreClose : List Piece := [text "</pre></figure>"]

/-- The code is formatted into `sizeof(code)` bytes, that is four; one that does not fit makes the
page empty. -/
def tpError (clt : Client) (code : Int) (reason : Bytes) : List Piece :=
  if (fmtInt code).length ≥ 4 then []
  else
    tpHead clt (lit "en") (some (lit "Proxy error"))
      ++ [text "<main><h1>Proxy error</h1>"]
      ++ (if code != -1 then
            [text "<p>Request failed with code: <code>", .html (fmtInt code),
              text "</code>.</p><p>The server says: ", .html reason, text ".</p>"]
          else [text "<p>Unable to serve the page due to: ", .html reason, text ".</p>"])
      ++ [text "</main>"]
      ++ tpFoot clt

def tpInputpage (clt : Client) (prompt : Bytes) : List Piece :=
  tpHead clt (lit "en") (some (lit "input request"))
    ++ [text "<p>The server ask for input: <q>", .html prompt,
      text "</q>.</p><form method=\"post\" enctype=\"",
      .html (lit "application/x-www-form-urlencoded"), text "\"><label for=\"reply\">",
      .html (lit "response "),
      text "</label><input type=\"text\" value=\"\" id=\"reply\" name=\"q\" autofocus />",
      .html (lit " "), text "<button type=\"submit\">Submit!</button></form>"]
    ++ tpFoot clt

end Galileo
