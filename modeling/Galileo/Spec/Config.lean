import Galileo.Model.Config

/-!
# What a configuration says

The proxy blocks of a configuration, read off its actions without performing any: a block is its
name and its options, `lastSource` is the `source` that counts, and nothing is stored, copied or
complained about. `Usable` is what the daemon needs of the configuration it has stored.
-/

set_option autoImplicit false

namespace Galileo.Conf

open Lib

/-! ## What is stored -/

/-- A configuration the daemon can run with. -/
structure Usable (conf : Config) : Prop where
  nonempty : conf.scProxies ≠ []
  distinct : (conf.scProxies.map (·.host)).Nodup
  addr : ∀ pr ∈ conf.scProxies, pr.proxyAddr ≠ []
  name : ∀ pr ∈ conf.scProxies, pr.proxyName ≠ []
  port : ∀ pr ∈ conf.scProxies, ∃ n, 1 ≤ n ∧ n ≤ 65535 ∧ pr.proxyPort = fmtNat n
  prefork : 1 ≤ conf.scPrefork ∧ conf.scPrefork ≤ procMaxInstances

/-! ## What is said -/

section Text

variable (lim : Limits) (serv : Bytes → Bytes → Option UInt16)

/-- A `source` whose port is not refused. -/
def Opt.source? : Opt → Option (Bytes × Option PortTok)
  | .source addr tok =>
      match proxyport serv tok with
      | .ok _ => some (addr, tok)
      | .error _ => none
  | _ => none

/-- The options that can give the capsule its name. -/
def Opt.names : Opt → Bool
  | .hostname _ => true
  | o => (o.source? serv).isSome

structure Block where
  host : Bytes
  opts : List Opt

def Block.lastSource (b : Block) : Option (Bytes × Option PortTok) :=
  (b.opts.filterMap (Opt.source? serv)).getLast?

/-- The port is not a text that stands for 0. -/
def Block.PortGiven (b : Block) : Prop :=
  ∀ addr s, b.lastSource serv = some (addr, some (.string s)) → getservice serv s ≠ some 0

/-- Behind an empty `hostname` there is another name, or a `source` to take it from. -/
def Block.NameGiven (b : Block) : Prop :=
  ∀ l r, b.opts = l ++ .hostname [] :: r → ∃ o ∈ r, o.names serv = true

/-- Every block has a source, and a name of its own. -/
structure Complete (bs : List Block) : Prop where
  source : ∀ b ∈ bs, ∃ addr tok, b.lastSource serv = some (addr, tok) ∧ addr ≠ []
  distinct : (bs.map (·.host)).Nodup

/-- How far the text is: the blocks that are closed, the one that is open, and in how many included
files. -/
structure Outline where
  blocks : List Block
  current : Option Block
  depth : Nat

def Outline.step (t : Outline) : Action → Outline
  | .includeFile _ true => { t with depth := t.depth + 1 }
  | .eof => { t with depth := t.depth - 1 }
  | .proxy host =>
      if host.length ≥ lim.hostNameMax + 1 then t else { t with current := some ⟨host, []⟩ }
  | .option o => { t with current := t.current.map fun b => { b with opts := b.opts ++ [o] } }
  | .close => { t with blocks := t.blocks ++ t.current.toList, current := none }
  | _ => t

def outline (as : List Action) : Outline := as.foldl (Outline.step lim) ⟨[], none, 0⟩

end Text

end Galileo.Conf
