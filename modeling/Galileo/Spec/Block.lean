import Galileo.Model.Compiler

/-!
# What a template says

The direct meaning of a template, without any C: the parts of a body are carried out one after the
other; text and expressions are written, `render` calls another template, the branches and loops do
what they say. The first call that returns -1 ends the body, wherever it is. The lines behind
`finally` are always the last thing that happens, and the result is that of the last call.

Nothing is said about a body with a loop that goes on for more rounds than it is given.
-/

set_option autoImplicit false

namespace Galileo

open Lib Lib.CStmt

namespace Tmpl

/-- Why a body is left early: a call has failed, or the rounds of a loop are used up. -/
inductive Stop where
  | failed
  | cut
deriving DecidableEq

section Run

variable {σ : Type} (host : Host σ) (rounds : Nat)

/-- A call, and the end of the body if it returns -1. -/
def orStop (call : Turn σ → Turn σ) : Act Stop (Turn σ) := fun t =>
  (if (call t).tpRet = -1 then some .failed else none, call t)

def Verbatim.run (v : Verbatim) : Act Stop (Turn σ) :=
  if v.lines.isEmpty then .skip else .set (host.lines v.lines)

/-- Without memory for the text the body ends. -/
def printOrStop (args : List Bytes) : Act Stop (Turn σ) := fun t =>
  (if (host.asprintf args t.host).1.isNone then some .failed else none, host.print args t)

def printf (args : List Bytes) : Act Stop (Turn σ) :=
  .seq (printOrStop host args)
    (.seq (orStop fun t => host.perform (.htmlescape (t.tpTmp.getD [])) t)
      (.set fun t => { t with tpTmp := none }))

mutual

def Body.run : Body → Act Stop (Turn σ)
  | .empty => .skip
  | .verbatim b v => .seq b.run (v.run host)
  | .raw b s => .seq b.run (orStop (host.perform (.write s.nstring)))
  | .special b p => .seq b.run p.run

def Special.run : Special → Act Stop (Turn σ)
  | .render e => orStop (host.perform (.render e.string))
  | .printf args => Tmpl.printf host args
  | .cond c b e => .branch (onHost (host.cond c.value)) b.run e.run
  | .for c b => (host.head (.for c.value)).run .cut rounds b.run
  | .tqforeach var head field b => (host.head (.tqforeach var head field)).run .cut rounds b.run
  | .while c b => (host.head (.while c.value)).run .cut rounds b.run
  | .plain e => orStop (host.performOn .writes e.string)
  | .urlescape e => orStop (host.performOn .urlescape e.string)
  | .htmlescape e => orStop (host.performOn .htmlescape e.string)

def Endif.run : Endif → Act Stop (Turn σ)
  | .last => .skip
  | .els b => b.run
  | .elsif c b e => .branch (onHost (host.cond c.value)) b.run e.run

end

def Block.body : Block → Body
  | .plain _ b => b
  | .finally _ b _ => b

/-- The lines behind `finally`. -/
def Block.last : Block → List (List Bytes)
  | .plain _ _ => []
  | .finally _ _ vs => (vs.map Verbatim.lines).filter (!·.isEmpty)

/-- The result of the block, if it has one, and what happened. -/
def Block.run (b : Block) (t : Turn σ) : Option Int × Turn σ :=
  match b.body.run host rounds { t with tpRet := 0 } with
  | (some .cut, t) => (none, t)
  | (_, t) => (some t.tpRet, b.last.foldl (fun t ls => host.lines ls t) t)

end Run

end Tmpl

end Galileo
