import JavaLift.Flow.Graph

/-!
Which definitions reach the blocks of a graph. A definition reaches a block if some way leads from it to the start
of the block on which no other definition writes its register; a wide definition also writes the register after its
own. An exception may leave a block anywhere, so it carries on all that reaches the block and all that the block
defines. The sets are found in rounds over all blocks, until a round changes nothing.
-/

namespace JavaLift

inductive DefSite where
  | entry
  | insn (block pos : Nat)
deriving DecidableEq

structure Def where
  reg : Nat
  wide : Bool
  site : DefSite
deriving DecidableEq

/-- The registers that a definition writes. Register numbers have sixteen bits. -/
def Def.written (d : Def) : List Nat := if d.wide then [d.reg, (d.reg + 1) % 65536] else [d.reg]

/-- What a block does to the definitions that come to it, which go by their numbers: `killed` are those of the
registers that it writes, `kept` those of its own that are still there at its end, and `made` all of its own. -/
structure Transfer where
  kept : NatSet
  killed : NatSet
  made : NatSet
deriving Inhabited

namespace Transfer

def definitionsOf (defs : Array Def) (reg : Nat) : List Nat :=
  (List.range defs.size).filter fun d => defs[d]?.any (·.reg == reg)

def overwrite (defs : Array Def) (t : Transfer) (reg : Nat) : Transfer :=
  let ids := definitionsOf defs reg
  { t with kept := ids.foldl NatSet.erase t.kept, killed := ids.foldl NatSet.insert t.killed }

def define (defs : Array Def) (t : Transfer) (id : Nat) : Transfer :=
  match defs[id]? with
  | some d =>
    let t := d.written.foldl (overwrite defs) t
    { t with kept := t.kept.insert id, made := t.made.insert id }
  | none => t

def ofDefs (defs : Array Def) (ids : List Nat) : Transfer := ids.foldl (define defs) ⟨∅, ∅, ∅⟩

def apply (t : Transfer) (s : NatSet) : NatSet := (s.diff t.killed).union t.kept

end Transfer

structure Reaching where
  ins : Array NatSet
  outs : Array NatSet

namespace Reaching

def atStart (r : Reaching) (b : Nat) : NatSet := (r.ins[b]?).getD ∅

def atEnd (r : Reaching) (b : Nat) : NatSet := (r.outs[b]?).getD ∅

def none (count : Nat) : Reaching := ⟨Array.replicate count ∅, Array.replicate count ∅⟩

end Reaching

/-- What the sets of a graph have to satisfy: the definitions at its entry, the blocks that each block is reached
from, in the normal way and by exceptions, and what every block does. -/
structure Equations where
  entry : Nat
  params : NatSet
  preds : Array (List Nat)
  exceptionPreds : Array (List Nat)
  transfers : Array Transfer

namespace Equations

/-- The equations of a graph, given its definitions, the number of those at its entry, and the numbers of the
definitions that the instructions of each block make. -/
def of (g : Graph) (defs : Array Def) (params : Nat) (rows : Array (Array (Option Nat))) : Equations where
  entry := g.entry
  params := .ofList (List.range params)
  preds := (Array.range g.size).map g.preds
  exceptionPreds := (Array.range g.size).map g.exceptionPreds
  transfers := rows.map fun row => Transfer.ofDefs defs (row.toList.filterMap id)

def transfer (e : Equations) (b : Nat) : Transfer := (e.transfers[b]?).getD ⟨∅, ∅, ∅⟩

def incoming (e : Equations) (r : Reaching) (b : Nat) : NatSet :=
  let start := if b = e.entry then e.params else ∅
  let normal := ((e.preds[b]?).getD []).foldl (fun s p => s.union (r.atEnd p)) start
  ((e.exceptionPreds[b]?).getD []).foldl (fun s p => (s.union (r.atStart p)).union (e.transfer p).made) normal

def update (e : Equations) (s : Reaching × Bool) (b : Nat) : Reaching × Bool :=
  let ins := e.incoming s.1 b
  let outs := (e.transfer b).apply ins
  if outs == s.1.atEnd b && ins == s.1.atStart b then s
  else (⟨s.1.ins.setIfInBounds b ins, s.1.outs.setIfInBounds b outs⟩, true)

def round (e : Equations) (r : Reaching) : Reaching × Bool :=
  (List.range e.transfers.size).foldl e.update (r, false)

def settle (e : Equations) : Nat → Reaching → Reaching
  | 0, r => r
  | rounds + 1, r =>
    let (next, changed) := e.round r
    if changed then e.settle rounds next else r

/-- The definitions that reach the blocks, when there are `count` of them. A round that changes something adds to
the start or the end of a block, so no more rounds are needed. -/
def solve (e : Equations) (count : Nat) : Reaching :=
  e.settle (2 * e.transfers.size * count + 1) (.none e.transfers.size)

end Equations

end JavaLift
