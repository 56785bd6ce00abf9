import JavaLift.Fault
import JavaLift.Insn.Tree
import JavaLift.DefUse.Chain

/-!
Which instructions of a block move into the place where their value is read. A plan only grows; what it says about
a position follows from the moves in it. A move is refused where the value would be computed on the other side of
something that it depends on.
-/

namespace JavaLift

/-- The instruction at position `source` takes the place of the register at `path` in the one at `use`. -/
structure Wrap where
  source : Nat
  use : Nat
  path : ArgPath
deriving DecidableEq

/-- The instructions of a block and the moves planned so far, the latest one first. -/
structure InlinePlan where
  insns : Array Insn
  wraps : List Wrap

namespace InlinePlan

def of (insns : List Insn) : InlinePlan := ⟨insns.toArray, []⟩

def moves (p : InlinePlan) : List Wrap := p.wraps.reverse

def target? (p : InlinePlan) (pos : Nat) : Option Nat := (p.wraps.find? fun w => w.source == pos).map (·.use)

/-- The first position that a move into the given one does not pass. -/
def border (p : InlinePlan) (use : Nat) : Nat := ((p.wraps.find? fun w => w.use == use).map (·.source)).getD use

/-- The positions of what moves into the given one directly. -/
def inner (p : InlinePlan) (use : Nat) : List Nat := (p.wraps.filter fun w => w.use == use).map (·.source)

/-- The instruction that the one at a position ends up in. A move goes forward, so the way there has at most as
many steps as the block has instructions. -/
def rootFrom (p : InlinePlan) : Nat → Nat → Nat
  | 0, pos => pos
  | steps + 1, pos => (p.target? pos).elim pos (p.rootFrom steps)

def root (p : InlinePlan) (pos : Nat) : Nat := p.rootFrom p.insns.size pos

def groupFrom (p : InlinePlan) : Nat → Nat → List Nat
  | 0, pos => [pos]
  | steps + 1, pos => pos :: (p.inner pos).flatMap (p.groupFrom steps)

def group (p : InlinePlan) (pos : Nat) : List Insn :=
  (p.groupFrom p.insns.size pos).filterMap fun i => p.insns[i]?

/-- The registers that the instruction at a position reads when it moves. -/
def movedReads (p : InlinePlan) (pos : Nat) : List Nat := (p.group pos).flatMap Insn.readCells

/-- All that moves is free in its place. -/
def groupReorders (p : InlinePlan) (pos : Nat) : Bool := (p.group pos).all Insn.canReorder

def writesAny (i : Insn) (regs : List Nat) : Bool := i.writeCells.any regs.contains

/-- A value that reads `regs` may be computed on the other side of an instruction. -/
def passes (regs : List Nat) (reorders : Bool) (i : Insn) : Bool :=
  !writesAny i regs && (reorders || i.canReorder)

/-- The instruction at `source` passes all between it and the border of `use` that stay where they are. -/
def canMove (p : InlinePlan) (source use : Nat) : Bool :=
  let regs := p.movedReads source
  let between := (List.range (p.border use)).filter fun i => source < i && p.root i != use
  (regs.isEmpty && (p.insns[source]?).any (·.op.isConst))
    || between.all fun i => (p.insns[i]?).all (passes regs (p.groupReorders source))

/-- The instructions in place in a tree that are computed before a path, and those computed after it. -/
def around : ArgPath → Insn → List Insn × List Insn
  | [], _ => ([], [])
  | s :: path, i =>
    let before := (i.slots.takeWhile fun (t, _) => t != s).filterMap (·.2.insn?)
    let rest := i.slots.dropWhile fun (t, _) => t != s
    let (first, last) := ((rest.head?.bind fun (_, a) => a.insn?).map (around path)).getD ([], [])
    (before ++ first, rest.tail.filterMap (·.2.insn?) ++ last)

/-- The instruction at `source` passes what is already in place around a path. What is computed later is only
passed by effects. -/
def fits (p : InlinePlan) (source : Nat) (path : ArgPath) (i : Insn) : Bool :=
  let (before, after) := around path i
  let reorders := p.groupReorders source
  before.all (passes (p.movedReads source) reorders) && after.all fun j => reorders || j.canReorder

def intoBranch (path : ArgPath) (i : Insn) : Bool :=
  match i.op, path with
  | .ternary .., .arg _ :: _ => true
  | _, _ => false

def admits (p : InlinePlan) (w : Wrap) : Bool :=
  (p.target? w.source).isNone && decide (w.source < p.border w.use) && p.canMove w.source w.use
    && (p.insns[w.use]?).all fun i =>
      (!intoBranch w.path i || p.groupReorders w.source) && p.fits w.source w.path i

def plan (p : InlinePlan) (w : Wrap) : Except Inconsistency (InlinePlan × Bool) :=
  if w.use ≤ w.source ∨ p.insns.size ≤ w.use then
    .error (.inlinePositions w.source w.use p.insns.size)
  else if p.admits w then .ok ({ p with wraps := w :: p.wraps }, true)
  else .ok (p, false)

end InlinePlan

namespace Wrap

/-- Makes a move: the source is taken out and put in the place of the register. -/
def apply (w : Wrap) (places : List (Option Insn)) : Except Inconsistency (List (Option Insn)) :=
  match (places[w.source]?).join with
  | none => .error (.alreadyWrapped w.source)
  | some source =>
    let places := places.set w.source none
    match (places[w.use]?).join with
    | none => .error (.noWrapTarget w.use)
    | some target => match target.wrapAt? w.path source with
      | none => .error (.noRegister (w.path.map Slot.render) w.use)
      | some whole => .ok (places.set w.use (some whole))

/-- Makes the moves one after the other, and closes the gaps. -/
def applyAll (wraps : List Wrap) (insns : List Insn) : Except Inconsistency (List Insn) := do
  let places ← wraps.foldlM (fun places w => w.apply places) (insns.map some)
  return places.filterMap id

end Wrap

/-- What moving values into place did: the passes made, with the last one that finds nothing, and the values
moved. -/
structure Inlining where
  passes : Nat
  moved : Nat
  diagnostics : List Diagnostic

namespace Inlining

/-- A caught exception stays at the start of its handler. -/
def isCaught (i : Insn) : Bool :=
  match i.op with
  | .moveException _ => true
  | _ => false

def planRead (c : Chain) (block pos : Nat) (p : InlinePlan) (path : ArgPath) : Except Inconsistency InlinePlan :=
  match c.inlineSource? block pos path with
  | none => .ok p
  | some source => if (p.insns[source]?).any isCaught then .ok p else (p.plan ⟨source, pos, path⟩).map (·.1)

/-- Plans the moves into one instruction, beginning with the register that is read last. -/
def planInsn (c : Chain) (block pos : Nat) (i : Insn) (p : InlinePlan) : Except Inconsistency InlinePlan :=
  (i.reads.map (·.1)).reverse.foldlM (planRead c block pos) p

def planBlock (c : Chain) (block : Nat) (insns : List Insn) : Except Inconsistency (List Wrap) := do
  let plan ← insns.zipIdx.foldlM (fun p (i, pos) => planInsn c block pos i p) (InlinePlan.of insns)
  return plan.moves

def passBlock (c : Chain) (b : Nat) (block : Block) : Except Inconsistency (Block × Nat) := do
  let wraps ← planBlock c b block.insns
  return ({ block with insns := ← Wrap.applyAll wraps block.insns }, wraps.length)

def pass (g : Graph) (entry : List Register) : Except Inconsistency (Graph × Nat) := do
  let c := Chain.build g entry
  let blocks ← g.blocks.toList.zipIdx.mapM fun (block, b) => passBlock c b block
  return ({ g with blocks := (blocks.map (·.1)).toArray }, blocks.foldr (fun b n => b.2 + n) 0)

def run (entry : List Register) (limit : Nat) : Nat → Inlining → Graph → Except Inconsistency (Graph × Inlining)
  | 0, s, g => .ok (g, { s with diagnostics := s.diagnostics ++
      [⟨.inlinePassLimit, "inlining stopped after " ++ toString limit ++ " passes"⟩] })
  | left + 1, s, g => do
    let (g, moved) ← pass g entry
    let s := { s with passes := s.passes + 1, moved := s.moved + moved }
    if moved = 0 then return (g, s) else run entry limit left s g

end Inlining

def Graph.inlineValues (g : Graph) (entry : List Register) (maxPasses : Nat) : Except Inconsistency (Graph × Inlining) :=
  Inlining.run entry maxPasses maxPasses ⟨0, 0, []⟩ g

end JavaLift
