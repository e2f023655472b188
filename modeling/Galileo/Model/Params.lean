import Mathlib.Algebra.Ring.Int.Defs
import Galileo.Model.State

/-!
# The parameters of a request (`fcgi.c`, `fcgi_parse_params`)

The loop over the name-value pairs of one `FCGI_PARAMS` record. It keeps its own count of what is
left of the record, `fcg_toread`, next to the event buffer it takes bytes from, and nothing but
the agreement of the two keeps it inside the record — so both are in the model, with `int`
arithmetic that wraps.

The buffer may run dry. `evbuffer_remove` then leaves a local variable with whatever was on the
stack; the caller appends those bytes to `src`.
-/

set_option autoImplicit false

namespace Galileo

open Lib

/-- The value of an `int` after signed arithmetic that wraps. -/
def int32 (x : Int) : Int := x.bmod (2 ^ 32)

/-- An `int` passed as a `size_t`. -/
def sizeT (x : Int) : Nat := (x % 2 ^ 64).toNat

/-- What `parse_len` returns and leaves behind. -/
structure LenRes where
  len : Int
  toread : Int
  src : Bytes

/-- `parse_len`: one byte, or four if the top bit of the first is set. -/
def parseLen (toread : Int) (src : Bytes) : LenRes :=
  let toread := toread - 1
  let c := (src.headD 0).toNat
  let src := src.drop 1
  if c >>> 7 = 0 then ⟨c, toread, src⟩
  else if toread < 3 then ⟨-1, toread, src⟩
  else
    let x0 := (src.headD 0).toNat
    let x1 := ((src.drop 1).headD 0).toNat
    let x2 := ((src.drop 2).headD 0).toNat
    ⟨((c &&& 0x7F) <<< 24 ||| x0 <<< 16 ||| x1 <<< 8 ||| x2 : Nat), toread - 3, src.drop 3⟩

/-- What the parser does with the value of a parameter that it knows and whose value fits the
buffer it is read into; `none` when the value is drained. The value is raw bytes, so it is a C
string only up to its first NUL. -/
def paramStore (env : Env) (pname : Bytes) (vlen : Nat) : Option (Bytes → Client → Client) :=
  if pname == lit "SERVER_NAME" && vlen < env.hostNameMax + 1 then
    some fun v c => { c with cltServerName := some (cstr v) }
  else if pname == lit "SCRIPT_NAME" && vlen < env.pathMax then
    some fun v c => { c with
      cltScriptName := some (if v.getLast? == some 47 then cstr v else cstr v ++ lit "/") }
  else if pname == lit "PATH_INFO" && vlen < env.pathMax then
    some fun v c => { c with
      cltPathInfo := some (if v.head? == some 47 then cstr v else lit "/" ++ cstr v) }
  else if pname == lit "QUERY_STRING" && vlen < geminiMaxlen && vlen > 0 then
    some fun v c => { c with cltQuery := some (cstr v) }
  else if pname == lit "REQUEST_METHOD" && vlen < 8 then
    some fun v c => { c with
      cltMethod :=
        if caseEq (cstr v) (lit "POST") then .post
        else if caseEq (cstr v) (lit "GET") then .get
        else c.cltMethod }
  else none

structure ParamSt where
  toread : Int
  src : Bytes
  clt : Client

/-- One round of the loop; `false` is `return (-1)`. -/
def paramStep (env : Env) (s : ParamSt) : Bool × ParamSt :=
  let n := parseLen s.toread s.src
  if n.len < 0 then (false, ⟨n.toread, n.src, s.clt⟩)
  else
    let v := parseLen n.toread n.src
    if v.len < 0 then (false, ⟨v.toread, v.src, s.clt⟩)
    else if v.toread < int32 (n.len + v.len) then (false, ⟨v.toread, v.src, s.clt⟩)
    else if n.len > 31 then
      -- "ignore this parameter": the count goes down by `nlen - vlen`, the buffer by their sum
      (true, ⟨int32 (v.toread - (n.len - v.len)),
        evbufferDrain (sizeT (int32 (n.len + v.len))) v.src, s.clt⟩)
    else
      let pname := cstr (evbufferRemove n.len.toNat v.src).1
      let src := (evbufferRemove n.len.toNat v.src).2
      let toread := int32 (v.toread - n.len - v.len)
      match paramStore env pname v.len.toNat with
      | some put =>
          (true, ⟨toread, (evbufferRemove v.len.toNat src).2,
            put (evbufferRemove v.len.toNat src).1 s.clt⟩)
      | none => (true, ⟨toread, evbufferDrain v.len.toNat src, s.clt⟩)

/-- `while (fcgi->fcg_toread > 0)`. -/
def paramLoop (env : Env) : Nat → ParamSt → Bool × ParamSt
  | 0, s => (false, s)
  | n + 1, s =>
      if s.toread ≤ 0 then (true, s)
      else match paramStep env s with
        | (false, s) => (false, s)
        | (true, s) => paramLoop env n s

/-- `fcgi_parse_params`. As long as the buffer has bytes each round takes one, and when it has
none each round reads two empty strings; hence the number of rounds. -/
def fcgiParseParams (env : Env) (s : ParamSt) : Bool × ParamSt :=
  paramLoop env (s.src.length + 2 ^ 31) s

end Galileo
