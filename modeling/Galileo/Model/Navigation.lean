import Galileo.Lib.CString
import Galileo.Model.Fragments

/-!
# The navigation bar, write by write (`fragments.tmpl`, `tp_navigation`)

The C at the top of `tp_navigation` cuts the client's path in place: it puts a NUL behind the part
it wants to copy and takes it away again, twice, with one pointer `t`. Here the path is a block of
memory and the pointers are indices into it. There is no value when a read or a write is outside of
it.
-/

set_option autoImplicit false

namespace Galileo

open Lib Lib.CString

/-- The memory of the path afterwards, and the locals; `usr` is not always set. -/
structure Navigation where
  path : Bytes
  home : Bytes
  usr : Option Bytes
  up : Bytes
deriving DecidableEq

/-- The body of the first `if`, with `tilde` and `t` where the searches have found them. -/
def navigationCut (mem : Bytes) (tilde t : Nat) : Option (Bytes × Bytes × Option Bytes) := do
  let t := t + 1
  let c ← mem[t]?
  let mem ← poke mem t 0
  let home ← strAt mem 1
  let mem ← poke mem t c
  let t := t - 1
  let c ← mem[t]?
  let mem ← poke mem t 0
  let usr ← strAt mem (tilde + 2)
  let mem ← poke mem t c
  return (mem, strlcpy geminiMaxlen home, some (strlcpy 64 usr))

/-- The first `if`. -/
def navigationHome (mem : Bytes) : Option (Bytes × Bytes × Option Bytes) := do
  let path ← strAt mem 0
  match strstr (lit "/~") path with
  | none => return (mem, [], none)
  | some found => do
      let tilde := path.length - found.length
      let rest ← strAt mem (tilde + 1)
      match strchr 47 rest with
      | none => return (mem, [], none)
      | some found => navigationCut mem tilde (tilde + 1 + (rest.length - found.length))

/-- The C in front of the text of `tp_navigation`. -/
def navigationAt (mem : Bytes) : Option Navigation := do
  let (mem, home, usr) ← navigationHome mem
  let up ← strAt mem 1
  return ⟨mem, home, usr, strlcpy geminiMaxlen up⟩

end Galileo
