import JavaLift.Fault
import JavaLift.Flow.Graph

/-!
The control flow graph of a list of instructions. A block starts at the first instruction, at every target of a
jump, at the bounds of guarded ranges and at handlers, and after every jump, return or throw. Blocks that cannot
be reached are left out, and only a block that can be reached may not run off the end of the code.
-/

namespace JavaLift.Graph

def checkTarget (insns : List Insn) (length target source : Nat) : Except Inconsistency Unit :=
  if length ≤ target then .error (.targetOutside target source)
  else if insns.any fun i => i.offset == target then .ok ()
  else .error (.targetInside target source)

def tryBounds (length : Nat) (t : TryRange) : List Nat :=
  t.start :: (if t.stop < length then [t.stop] else []) ++ t.handlers.map (·.target)

/-- Checks all targets and bounds, in the order of the code and then of the table. -/
def checkTargets (insns : List Insn) (tries : List TryRange) (length : Nat) : Except Inconsistency Unit := do
  insns.forM fun i => i.op.targets.forM fun t => checkTarget insns length t i.offset
  tries.forM fun r => (tryBounds length r).forM fun t => checkTarget insns length t r.start

def afterTerminators : List Insn → List Nat
  | i :: j :: rest => (if i.op.isTerminator then [j.offset] else []) ++ afterTerminators (j :: rest)
  | _ => []

def leaders (insns : List Insn) (tries : List TryRange) (length : Nat) : List Nat :=
  (insns.head?.map (·.offset)).toList ++ insns.flatMap (·.op.targets) ++ afterTerminators insns
    ++ tries.flatMap (tryBounds length)

/-- Marks the instructions that start a block: the first one of each leading offset. -/
def markStarts (leading : List Nat) (seen : List Nat) : List Insn → List (Bool × Insn)
  | [] => []
  | i :: rest =>
    (leading.contains i.offset && !seen.contains i.offset, i) :: markStarts leading (i.offset :: seen) rest

def cut : List (Bool × Insn) → List (List Insn)
  | [] => []
  | (_, i) :: rest => match rest, cut rest with
    | (false, _) :: _, run :: runs => (i :: run) :: runs
    | _, runs => [i] :: runs

/-- Keeps the first of equal numbers. -/
def distinct (bs : List Nat) : List Nat := bs.foldl (fun kept b => if kept.contains b then kept else kept ++ [b]) []

def findBlock (starts : List Nat) (offset : Nat) : Except Inconsistency Nat :=
  match starts.idxOf? offset with
  | some b => .ok b
  | none => .error (.noBlock offset)

/-- The way that leads from the last instruction of block `b` to the block after it. None where the code ends. -/
def fallThrough? (starts : List Nat) (b : Nat) : Option Nat := if b + 1 < starts.length then some (b + 1) else none

/-- The successors of a block, and what is wrong if control runs off the end of the code. -/
def normalEdges (starts : List Nat) (b : Nat) (last : Insn) :
    Except Inconsistency (List Nat × Option Inconsistency) := do
  let next := fallThrough? starts b
  let orElse (cause : Inconsistency) : Option Inconsistency := if next.isNone then some cause else none
  match last.op with
  | .goto target => return ([← findBlock starts target], none)
  | .jumpIf _ target =>
    let t ← findBlock starts target
    return (next.toList ++ [t], orElse (.branchFallsOff last.offset))
  | .switchOn _ targets default =>
    let (first, cause) ← match default with
      | some d => do pure ([← findBlock starts d], none)
      | none => pure (next.toList, orElse (.switchFallsOff last.offset))
    let rest ← targets.mapM (findBlock starts)
    return (first ++ rest, cause)
  | .ret | .throw => return ([], none)
  | _ => return (next.toList, orElse (.executionFallsOff last.offset))

def tryRegion (starts : List Nat) (t : TryRange) : Except Inconsistency TryRegion := do
  let handlers ← t.handlers.mapM fun h => do return HandlerBlock.mk h.exception (← findBlock starts h.target)
  let covered := (starts.zipIdx.filter fun (s, _) => t.start ≤ s && s < t.stop).map (·.2)
  return ⟨t.start, t.stop, handlers, covered⟩

def handlersOf (tries : List TryRegion) (b : Nat) : List Nat :=
  distinct ((tries.filter fun t => t.covered.contains b).flatMap fun t => t.handlers.map (·.block))

/-- A block that may run off the end of the code. -/
structure Draft where
  block : Block
  cause : Option Inconsistency

def draft (insns : List Insn) (tries : List TryRange) (length : Nat) :
    Except Inconsistency (List Draft × List TryRegion) := do
  let runs := cut (markStarts (leaders insns tries length) [] insns)
  let starts := runs.map fun run => run.head?.elim 0 fun i => i.offset
  let edges ← runs.zipIdx.mapM fun (run, b) => match run.getLast? with
    | some last => normalEdges starts b last
    | none => .ok ([], none)
  let regions ← tries.mapM (tryRegion starts)
  let drafts := (runs.zip (starts.zip edges)).zipIdx.map fun ((run, start, succs, cause), b) =>
    Draft.mk ⟨start, run, distinct succs, handlersOf regions b⟩ cause
  return (drafts, regions)

def renumber (kept : Array Bool) (b : Nat) : Nat := ((List.range b).filter (Digraph.has kept)).length

/-- Keeps the given blocks. A guarded range without blocks or without handlers is left out. -/
def restrict (g : Graph) (kept : Array Bool) : Graph :=
  let keep (bs : List Nat) : List Nat := (bs.filter (Digraph.has kept)).map (renumber kept)
  let blocks := (g.blocks.toList.zipIdx.filter fun (_, b) => Digraph.has kept b).map fun (block, _) =>
    { block with succs := keep block.succs, handlers := keep block.handlers }
  let tries := g.tries.map fun t =>
    { t with
      covered := keep t.covered
      handlers := (t.handlers.filter fun h => Digraph.has kept h.block).map fun h =>
        { h with block := renumber kept h.block } }
  ⟨blocks.toArray, renumber kept g.entry, tries.filter fun t => !t.covered.isEmpty && !t.handlers.isEmpty⟩

def build (insns : List Insn) (tries : List TryRange) (length : Nat) : Except Inconsistency Graph := do
  if insns.isEmpty then throw .noInstructions
  checkTargets insns tries length
  let (drafts, regions) ← draft insns tries length
  let g : Graph := ⟨(drafts.map (·.block)).toArray, 0, regions⟩
  let kept := g.digraph.reach (fun _ => false) [g.entry]
  let reached := (drafts.zipIdx.filter fun (_, b) => Digraph.has kept b).map (·.1)
  if let some cause := reached.findSome? (·.cause) then throw cause
  return if kept.all id then g else g.restrict kept

end JavaLift.Graph
