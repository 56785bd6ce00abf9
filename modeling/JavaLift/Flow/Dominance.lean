import JavaLift.Flow.Graph
import JavaLift.Flow.Digraph

namespace JavaLift

/-- A loop: the block that control enters by, all its blocks in increasing order, and the blocks that jump back. -/
structure Loop where
  header : Nat
  body : List Nat
  latches : List Nat

structure Dominance where
  idom : Array (Option Nat)
  ipdom : Array (Option Nat)
  order : List Nat
  loops : List Loop
  irreducible : Bool

namespace Dominance

/-- Climbs from `b` in a table of immediate dominators, some steps at most, and looks for `a`. -/
def climbs (idom : Array (Option Nat)) (a : Nat) : Nat → Nat → Bool
  | 0, _ => false
  | steps + 1, b => b == a || (idom[b]?).join.any (climbs idom a steps)

/-- Every way from the entry to `b` passes `a`. There are no more dominators to climb to than there are blocks. -/
def dominates (d : Dominance) (a b : Nat) : Bool := climbs d.idom a d.idom.size b

def children (d : Dominance) (b : Nat) : List Nat :=
  (List.range d.idom.size).filter fun c => (d.idom[c]?).join == some b

def orderIndex (d : Dominance) (b : Nat) : Nat := d.order.idxOf b

/-- The next block that all ways from `b` out of the method pass. -/
def ipdomOf (d : Dominance) (b : Nat) : Option Nat := (d.ipdom[b]?).join

def loopAt? (d : Dominance) (header : Nat) : Option Loop := d.loops.find? fun l => l.header == header

/-- The normal edges turned round, with one node more from which the exits of the method are reached. -/
def exitGraph (g : Graph) : Digraph :=
  ⟨g.size + 1, fun b =>
    if b = g.size then (List.range g.size).filter fun a => (g.succs a).isEmpty else g.preds b⟩

/-- The blocks of the loop of an edge back to its header: those from which the edge is reached without passing
the header. -/
def loopBody (g : Graph) (latch header : Nat) : List Nat :=
  let back : Digraph := ⟨g.size, fun b => g.preds b ++ g.exceptionPreds b⟩
  let inside := back.tabulate.reach (· == header) [latch]
  (List.range g.size).filter fun b => b == header || Digraph.has inside b

def addBackEdge (g : Graph) (loops : List Loop) (latch header : Nat) : List Loop :=
  let body := loopBody g latch header
  if loops.any fun l => l.header == header then
    loops.map fun l =>
      if l.header == header then
        ⟨header, (List.range g.size).filter fun b => l.body.contains b || body.contains b, l.latches ++ [latch]⟩
      else l
  else loops ++ [⟨header, body, [latch]⟩]

/-- The analysis of a graph, given the immediate dominators of its blocks and those of the ways out. A retreating edge
to a block that does not dominate its source belongs to no loop. -/
def ofTables (g : Graph) (idom ipdom : Array (Option Nat)) : Dominance :=
  let search := g.digraph.search g.entry
  let (back, crossing) := search.retreating.partition fun (a, h) => climbs idom h idom.size a
  let loops := back.foldl (fun loops (latch, header) => addBackEdge g loops latch header) []
  { idom
    ipdom
    order := search.order
    loops := loops.mergeSort fun l m => search.order.idxOf l.header ≤ search.order.idxOf m.header
    irreducible := !crossing.isEmpty }

def of (g : Graph) : Dominance :=
  let blocks := Array.range g.size
  let dominators := g.digraph.dominators g.entry
  let exits := (exitGraph g).tabulate.dominators g.size
  ofTables g (blocks.map dominators.immediate?) (blocks.map fun b => (exits.immediate? b).filter (· != g.size))

end Dominance

end JavaLift
