import JavaLift.Fold.Conditional
import JavaLift.Proofs.Region.Agreement

namespace JavaLift

/-- An event of an execution. What an operation or a comparison takes are the values computed last. A loop names the
block of its comparison and what it finds there, a jump its target and whether the tree carries it. -/
inductive Event where
  | read (reg : Nat)
  | literal (value : Int) (type : Ty)
  | compute (op : Op) (offset inputs : Nat)
  | assign (reg : Nat)
  | decided (cmp : CmpOp) (inputs : Nat) (holds : Bool)
  | selected (inputs : Nat) (key : Int)
  | round (cond : Option Nat) (found : Option (CmpOp × List Arg))
  | jump (target : Nat) (found : Bool)

/-- The events of an execution, the latest one first. -/
abbrev Trace := List Event

/-- The outcomes of comparisons, operations and switches, and the handlers that exceptions go to. -/
structure Outcomes where
  holds : CmpOp → Trace → Bool
  throws : Trace → Bool
  key : Trace → Int
  handler : Trace → Nat

namespace Outcomes

open Conditionals

variable (o : Outcomes)

def log (e : Event) : Act Trace Unit := modify (e :: ·)

def decide (cmp : CmpOp) (inputs : Nat) : Act Trace Bool := do
  let holds := o.holds cmp (← get)
  log (.decided cmp inputs holds)
  return holds

def compute (op : Op) (offset inputs : Nat) : Act Trace Unit := do
  log (.compute op offset inputs)
  if o.throws (← get) then throw .thrown

mutual

/-- Computes the value of an argument. A conditional value computes its comparison and one of its branches, a copy
only its operand. The register that an inner instruction once wrote is not assigned. -/
def eval : Arg → Act Trace Unit
  | .reg r => log (.read r.reg)
  | .lit value type => log (.literal value type)
  | .tree head args => match head.op with
    | .ternary cmp n => do
      evalSome 0 n args
      if ← o.decide cmp n then evalSome n 1 args else evalSome (n + 1) 1 args
    | .move => evalSome 0 args.length args
    | op => do
      evalSome 0 args.length args
      o.compute op head.offset args.length

/-- Computes some of the arguments, after skipping others. -/
def evalSome (skip take : Nat) : List Arg → Act Trace Unit
  | [] => pure ()
  | a :: rest => match skip, take with
    | skip + 1, take => evalSome skip take rest
    | 0, take + 1 => do
      eval a
      evalSome 0 take rest
    | 0, 0 => pure ()

end

def evalAll (args : List Arg) : Act Trace Unit := o.evalSome 0 args.length args

def step (i : Insn) : Act Trace Unit :=
  match i.op with
  | .nop | .goto _ | .jumpIf .. | .switchOn .. => pure ()
  | .ret => do
    o.evalAll i.args
    throw .left
  | .throw => do
    o.evalAll i.args
    throw .thrown
  | _ => do
    o.eval i.toArg
    match i.result with
    | some r => log (.assign r.reg)
    | none => pure ()

def steps : List Insn → Act Trace Unit
  | [] => pure ()
  | i :: rest => do
    o.step i
    steps rest

def decideOn (negated : Bool) : Option (CmpOp × List Arg) → Act Trace Bool
  | none => throw .stuck
  | some (cmp, args) => do
    o.evalAll args
    o.decide (if negated then cmp.negate else cmp) args.length

def keyOf (args : List Arg) : Act Trace Int := do
  o.evalAll args
  let key := o.key (← get)
  log (.selected args.length key)
  return key

end Outcomes

def Graph.comparisonAt (g : Graph) (b : Nat) : Option (CmpOp × List Arg) :=
  (Conditionals.comparison? (g.block b).insns).map fun (cmp, i, _) => (cmp, i.args)

def CaseHead.select (heads : List CaseHead) (key : Int) : Option Nat :=
  (heads.findIdx? fun h => h.keys.contains key) <|> heads.findIdx? (·.isDefault)

namespace Graph

variable (o : Outcomes) (g : Graph)

def selectAt (b : Nat) (heads : List CaseHead) : Act Trace (Option Nat) :=
  match (g.block b).terminator? with
  | some i => do return CaseHead.select heads (← o.keyOf i.args)
  | none => throw .stuck

def leapFrom (b : Nat) : Act Trace Unit :=
  match (g.block b).terminator?, g.succs b with
  | _, [] => pure ()
  | some i, first :: others => match i.op with
    | .jumpIf .. => do
      if ← o.decideOn false (g.comparisonAt b) then throw (.jump (others.getLastD first)) else throw (.jump first)
    | .switchOn keys targets _ => do
      let key ← o.keyOf i.args
      match ((keys.zip targets).lookup key).bind g.blockAt? with
      | some target => throw (.jump target)
      | none => throw (.jump first)
    | _ => throw (.jump first)
  | none, first :: _ => throw (.jump first)

/-- The machine of a graph, with what its loops find at the blocks of their comparisons and the blocks that jumps can
go to. -/
def machine (comparisons : Nat → Option (CmpOp × List Arg)) (targets : List Nat) : Machine Trace where
  visit b := o.steps (g.block b).insns
  test b negated := o.decideOn negated (g.comparisonAt b)
  round cond negated := do
    Outcomes.log (.round cond (cond.bind comparisons))
    o.decideOn negated (cond.bind comparisons)
  select := g.selectAt o
  handler heads := do
    let n := o.handler (← get)
    return if n < heads.length then some n else none
  leap := g.leapFrom o
  land target := do
    Outcomes.log (.jump target (targets.contains target))
    return targets.contains target

/-- Executes a region tree over the graph in at most `n` rounds of a loop and `n` jumps: how it ends, and its
events. -/
def execute (root : Region) (n : Nat) : Except Exit Unit × Trace :=
  ((g.machine o g.comparisonAt root.carriers).run root n).on []

end Graph

end JavaLift
