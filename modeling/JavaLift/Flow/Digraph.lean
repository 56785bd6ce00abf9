namespace JavaLift

structure Digraph where
  size : Nat
  succs : Nat → List Nat

namespace Digraph

def tabulate (g : Digraph) : Digraph :=
  let table := (Array.range g.size).map g.succs
  ⟨g.size, fun b => (table[b]?).getD []⟩

def mark (blocked : Nat → Bool) (r : List Nat × Array Bool) (b : Nat) : List Nat × Array Bool :=
  if blocked b || (r.2[b]?).getD true then r else (b :: r.1, r.2.setIfInBounds b true)

/-- Follows the nodes on the list until none is left. A node is put on the list once at most. -/
def follow (g : Digraph) (blocked : Nat → Bool) : Nat → List Nat × Array Bool → Array Bool
  | 0, r => r.2
  | rounds + 1, (work, seen) => match work with
    | [] => seen
    | b :: rest => g.follow blocked rounds ((g.succs b).foldl (mark blocked) (rest, seen))

/-- The nodes that a way from one of the roots leads to without passing a blocked node. -/
def reach (g : Digraph) (blocked : Nat → Bool) (roots : List Nat) : Array Bool :=
  g.follow blocked g.size (roots.foldl (mark blocked) ([], Array.replicate g.size false))

def has (nodes : Array Bool) (b : Nat) : Bool := (nodes[b]?).getD false

def without (g : Digraph) (root : Nat) : Array (Array Bool) :=
  (Array.range g.size).map fun d => g.reach (· == d) [root]

structure Dominators where
  reached : Array Bool
  avoiding : Array (Array Bool)

def dominators (g : Digraph) (root : Nat) : Dominators := ⟨g.reach (fun _ => false) [root], g.without root⟩

namespace Dominators

/-- Every way from the root to `b` passes `a`. A node dominates itself. -/
def dominates (d : Dominators) (a b : Nat) : Bool :=
  a == b || (has d.reached b && !has ((d.avoiding[a]?).getD #[]) b)

def strict (d : Dominators) (b : Nat) : List Nat :=
  (List.range d.reached.size).filter fun a => a != b && d.dominates a b

def immediate? (d : Dominators) (b : Nat) : Option Nat :=
  let candidates := d.strict b
  candidates.find? fun c => candidates.all fun a => d.dominates a c

end Dominators

end Digraph

inductive Visit where
  | untouched | entered | left
deriving DecidableEq

/-- The state of a search. `order` has the nodes that were left, the latest one first. -/
structure Search where
  visits : Array Visit
  order : List Nat
  retreating : List (Nat × Nat)

namespace Search

def status (s : Search) (b : Nat) : Visit := (s.visits[b]?).getD .left

def enter (s : Search) (b : Nat) : Search := { s with visits := s.visits.setIfInBounds b .entered }

def leave (s : Search) (b : Nat) : Search :=
  { s with visits := s.visits.setIfInBounds b .left, order := b :: s.order }

/-- Enters a node, goes through its successors and leaves it. No search is deeper than there are nodes. -/
def run (succs : Nat → List Nat) : Nat → Search → Nat → Search
  | 0, s, _ => s
  | depth + 1, s, b =>
    ((succs b).foldl (fun s t => match s.status t with
      | .untouched => run succs depth s t
      | .entered => { s with retreating := s.retreating ++ [(b, t)] }
      | .left => s) (s.enter b)).leave b

end Search

def Digraph.search (g : Digraph) (root : Nat) : Search :=
  Search.run g.succs g.size ⟨Array.replicate g.size .untouched, [], []⟩ root

end JavaLift
