import Galileo.Lib.CString
import Galileo.Model.Gemtext

/-!
# Rewriting links, read by read (`proxy.c`, `portok` and `proxy_resurl`)

The functions of `Model.Gemtext` once more, now with the pointers of the source as indices into the
URL's array and every read of it made explicit. `none` is a read outside of that array; what the
code would find there is not asked. The other strings, server name, port and script name, are read
from their beginning by functions that stop at their ends, so they stay lists.
-/

set_option autoImplicit false

namespace Galileo

open Lib Lib.CString

/-- `*u == '\0' || *u == '/' || *u == '?' || *u == '#'`. -/
def endsAuthority (b : UInt8) : Bool := b == 0 || b == 47 || b == 63 || b == 35

/-- `portok`, with `*url` at `i`: where it is afterwards, or that 0 is returned. -/
def portokAt (port url : Bytes) (i : Nat) : Option (Option Nat) := do
  let u ← charAt url i
  if endsAuthority u then some (some i)
  else if u ≠ 58 then some none
  else do
    let same ← startsAt url (i + 1) port
    if !same then some none
    else do
      let u ← charAt url (i + 1 + port.length)
      some (if endsAuthority u then some (i + 1 + port.length) else none)

/-- `strncmp(tmp, clt->clt_server_name, l)` and `portok`, with `tmp` at `i`. -/
def authorityAt (name port url : Bytes) (i : Nat) : Option (Option Nat) := do
  let same ← startsAt url i name
  if !same then some none else portokAt port url (i + name.length)

/-- Where `url` is when it is looked at for a path, or that `done` is reached before. -/
def stripAuthorityAt (name port url : Bytes) : Option (Option Nat) := do
  let slashes ← startsAt url 0 (lit "//")
  if slashes then authorityAt name port url 2
  else do
    let gemini ← startsAt url 0 (lit "gemini://")
    if gemini then authorityAt name port url 9
    else do
      let tmp ← skipAt (fun b => isalpha b || b == 43) url (url.length + 1) 0
      let scheme ← startsAt url tmp (lit "://")
      some (if scheme then none else some 0)

/-- `proxy_resurl`; the inner results are those of `proxyResurl`. -/
def proxyResurlAt (clt : Client) (url : Bytes) (len : Nat) : Option (Option (Option Bytes)) :=
  match clt.cltServerName with
  | none => some (some none)
  | some name =>
      if len = 0 then some (some none)
      else match clt.cltPc with
        | none => some none
        | some pc => do
            let behind ← stripAuthorityAt name pc.proxyPort url
            match behind with
            | none => do
                let src ← readAt url 0
                some (some (copyFits len src))
            | some i => do
                let u ← charAt url i
                if u == 0 || u == 47 then
                  match clt.cltScriptName with
                  | none => some none
                  | some prfx =>
                      if prfx.length ≥ len then some (some none)
                      else do
                        -- `strlcat(buf, url + 1, len)`
                        let src ← readAt url (i + 1)
                        some (some (copyFits len (prfx ++ src)))
                else do
                  let src ← readAt url i
                  some (some (copyFits len src))

/-- The link branch of `gemtext_translate_line` on a line that begins with `=>`, up to the call of
`match_image_heur`: the URL the link leads to and its label. -/
def gemtextLinkAt (clt : Client) (line : Bytes) : Option (Option (Bytes × Bytes)) := do
  let start ← skipAt isblank line (line.length + 1) 2
  let label ← skipAt (fun b => b != 0 && !isblank b) line (line.length + 1) start
  let u ← charAt line label
  -- the blank behind the URL becomes its terminator, and the URL an array of its own
  let url := (line.drop start).take (label - start)
  let label ←
    if u = 0 then readAt line start
    else do
      let label ← skipAt isblank line (line.length + 1) (label + 1)
      let u ← charAt line label
      if u = 0 then some url else readAt line label
  let buf ← proxyResurlAt clt url 1025
  some (match buf with
    | none => none
    | some none => some (url, label)
    | some (some buf) => some (buf, label))

end Galileo
