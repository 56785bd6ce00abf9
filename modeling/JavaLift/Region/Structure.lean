import JavaLift.Flow.Dominance
import JavaLift.NatSet
import JavaLift.Region.Basic

/-!
From a graph to a region tree. Blocks are taken in the order of control; two ways that part again meet at the
next block that both have to pass. A jump that no construct around it catches becomes explicit and leaves a
remark. A graph with a loop that has two entries is given as its blocks in the order of the code.
-/

namespace JavaLift

/-- A construct that a jump can leave. A loop also lists its blocks, and the block that holds its comparison if
that comes last. -/
inductive Frame where
  | loop (header : Nat) (exit : Option Nat) (body : List Nat) (latch : Option Nat)
  | switch (exit : Option Nat)

namespace Frame

def isLoop : Frame → Bool
  | .loop .. => true
  | .switch _ => false

def catchesJump (b : Nat) : Frame → Bool
  | .loop header exit _ _ => b == header || exit == some b
  | .switch exit => exit == some b

/-- The word for a jump to a block that leaves some of the constructs, the innermost first; `passed` are those
inside them. A jump out of the innermost construct needs no label, and neither does the next round of the
innermost loop. A switch other than the innermost construct cannot be left. -/
def jump? (b : Nat) (passed : List Frame) : List Frame → Option Region
  | [] => none
  | .loop header exit body latch :: rest =>
    if b = header then some (.cont (if passed.any isLoop then some header else none))
    else if exit = some b then some (.brk (if passed.isEmpty then none else some header))
    else jump? b (passed ++ [.loop header exit body latch]) rest
  | .switch exit :: rest =>
    if exit = some b ∧ passed.isEmpty then some (.brk none) else jump? b (passed ++ [.switch exit]) rest

end Frame

/-- Where a region is built: the block at which it ends, the constructs around it, the innermost first, and the
blocks it may use if it is guarded. -/
structure Scope where
  follow : Option Nat
  frames : List Frame
  allowed : Option (List Nat)

namespace Scope

def outermost : Scope := ⟨none, [], none⟩

def loop? (s : Scope) : Option Frame := s.frames.find? Frame.isLoop

/-- The block that holds the comparison of the innermost loop, if it comes last. -/
def latch? (s : Scope) : Option Nat := s.loop?.bind fun
  | .loop _ _ _ latch => latch
  | .switch _ => none

def inLoop (s : Scope) (b : Nat) : Bool := s.loop?.all fun
  | .loop _ _ body _ => body.contains b
  | .switch _ => true

def inTry (s : Scope) (b : Nat) : Bool := s.allowed.all fun blocks => blocks.contains b

/-- Two ways can meet again at the block inside the present region. -/
def accepts (s : Scope) (b : Nat) : Bool :=
  s.inLoop b && s.inTry b && !s.frames.any fun
    | .loop header .. => header == b
    | .switch _ => false

end Scope

/-- The region tree of a method, the blocks that need labels, the loops that need them, and remarks. -/
structure Structured where
  root : Region
  labels : NatSet
  loopLabels : NatSet
  diagnostics : List Diagnostic
  irreducible : Bool

/-- How far a tree has come: the blocks that stand in it, the guarded ranges that do, by their numbers, and what
will need a label. -/
structure Progress where
  placed : NatSet
  guarded : NatSet
  labels : NatSet
  loopLabels : NatSet
  diagnostics : List Diagnostic

namespace Progress

def start : Progress := ⟨.empty, .empty, .empty, .empty, []⟩

def place (b : Nat) (p : Progress) : Progress := { p with placed := p.placed.insert b }

def guard (t : Nat) (p : Progress) : Progress := { p with guarded := p.guarded.insert t }

def label (b : Nat) (p : Progress) : Progress := { p with labels := p.labels.insert b }

def labelLoop (p : Progress) : Region → Progress
  | .brk (some header) | .cont (some header) => { p with loopLabels := p.loopLabels.insert header }
  | _ => p

def remark (message : String) (p : Progress) : Progress :=
  { p with diagnostics := p.diagnostics ++ [⟨.structuringFallback, message⟩] }

end Progress

namespace Region

/-- Follows control from a block and gives the regions it runs through. `asBody` is set where the block is the
first one of a loop or guarded range that is being built. -/
abbrev Walk := Scope → (asBody : Bool) → (start : Nat) → StateM Progress (List Region)

variable (g : Graph) (d : Dominance)

def jumpTo (target : Nat) (reason : String) : StateM Progress Region := do
  modify fun p => (p.remark (reason ++ " (" ++ labelName (g.block target).start ++ ")")).label target
  return .goto target

def reachable (b : Nat) : List Nat :=
  let seen := g.digraph.reach (fun _ => false) [b]
  (List.range g.size).filter (Digraph.has seen)

/-- A single way leads to the block, and everything after it comes after it alone and has not been placed. -/
def isTail (p : Progress) (b : Nat) : Bool :=
  (g.preds b).length == 1 && (g.exceptionPreds b).isEmpty
    && (reachable g b).all fun r => d.dominates b r && !p.placed.contains r

def isQuiet : Op → Bool
  | .nop | .const | .constString _ | .move | .goto _ | .ret => true
  | _ => false

def isQuietTail (b : Nat) : Bool := (reachable g b).all fun r => (g.block r).insns.all fun i => isQuiet i.op

/-- A jump out of the present region. What comes after it is put in its place if that moves nothing under other
handlers. -/
def leave (walk : Walk) (fromTry : Bool) (b : Nat) : StateM Progress (List Region) := do
  let p ← get
  if !p.placed.contains b && isTail g d p b && (!fromTry || isQuietTail g b) then walk .outermost false b
  else return [← jumpTo g b "jump out of structured region"]

/-- The block is where some construct around goes on, or nothing comes back from it. -/
def isExitArm (s : Scope) (p : Progress) (b : Nat) : Bool :=
  s.frames.any (Frame.catchesJump b) || (!p.placed.contains b && isTail g d p b)

/-- The block at which the ways from a block meet again, if the present region reaches as far. -/
def mergeOf (s : Scope) (b : Nat) : Option Nat := (d.ipdomOf b).filter s.accepts

def arms (walk : Walk) (s : Scope) (b fall target : Nat) (merge : Option Nat) : StateM Progress Region := do
  let s := { s with follow := merge }
  if merge = some target then return .branch b true (ofList (← walk s false fall)) none
  else if merge = some fall then return .branch b false (ofList (← walk s false target)) none
  else
    let thenPart ← walk s false fall
    let elsePart ← walk s false target
    return .branch b true (ofList thenPart) (some (ofList elsePart))

/-- A block that ends in a comparison, and the block that comes after the construct. Where the arms do not meet,
one that leads away is closed first, and the other one goes on. -/
def branchAt (walk : Walk) (s : Scope) (b : Nat) : StateM Progress (Region × Option Nat) := do
  match g.succs b with
  | [fall, target] => match mergeOf d s b with
    | some m => return (← arms walk s b fall target (some m), some m)
    | none =>
      let p ← get
      let inner := { s with follow := none }
      if isExitArm g d s p target then
        return (.branch b false (ofList (← walk inner false target)) none, some fall)
      else if isExitArm g d s p fall then
        return (.branch b true (ofList (← walk inner false fall)) none, some target)
      else return (← arms walk s b fall target none, none)
  | [only] => return (.branch b false (.seq []) none, some only)
  | _ => return (.block b, none)

def keyBlocks (keys : List Int) (targets : List Nat) : List (Nat × Int) :=
  (keys.zip targets).filterMap fun (key, target) => (g.blockAt? target).map fun b => (b, key)

/-- The blocks that cases start at, in the order of the code. One that only leads past the switch needs no case. -/
def caseTargets (keyed : List (Nat × Int)) (default : Nat) (merge : Option Nat) : List Nat :=
  let named := (List.range g.size).filter fun b => keyed.any fun (t, _) => t == b
  let all := if named.contains default then named else named ++ [default]
  let kept := if merge = some default then all.filter (· != default) else all
  kept.mergeSort fun a b => (g.block a).start ≤ (g.block b).start

/-- The body of the case at a block. It ends where the next case starts. -/
def caseBody (walk : Walk) (s : Scope) (merge next : Option Nat) (target : Nat) : StateM Progress Region := do
  if merge = some target then return .brk none
  else if (← get).placed.contains target then jumpTo g target "switch case reached twice"
  else return ofList (← walk { s with follow := next } false target)

def caseBodies (walk : Walk) (s : Scope) (merge : Option Nat) : List Nat → StateM Progress (List Region)
  | [] => return []
  | target :: rest => do
    let body ← caseBody g walk s merge rest.head? target
    return body :: (← caseBodies walk s merge rest)

def switchAt (walk : Walk) (s : Scope) (b : Nat) (keys : List Int) (targets : List Nat) :
    StateM Progress (Region × Option Nat) := do
  match g.succs b with
  | [] => return (.block b, none)
  | default :: _ =>
    let merge := mergeOf d s b
    let keyed := keyBlocks g keys targets
    let entries := caseTargets g keyed default merge
    let bodies ← caseBodies g walk { s with frames := .switch merge :: s.frames } merge entries
    let heads := entries.map fun t => CaseHead.mk ((keyed.filter fun k => k.1 == t).map (·.2)) (t == default) t
    return (.switch b (heads.zip bodies), merge)

/-- The larger one of two ranges, or the later one where none is larger. -/
def largerTry : Option (Nat × TryRegion) → TryRegion × Nat → Option (Nat × TryRegion)
  | some (m, u), (t, n) => if u.covered.length ≤ t.covered.length then some (n, t) else some (m, u)
  | none, (t, n) => some (n, t)

/-- The guarded range that starts at a block and is not in the tree yet; of several, the last of the largest. -/
def tryAt? (p : Progress) (b : Nat) : Option (Nat × TryRegion) :=
  (g.tries.zipIdx.filter fun (t, n) => !p.guarded.contains n && t.covered.head? == some b).foldl largerTry none

/-- The first block in the order of the code that a guarded range goes on with. -/
def exitOfTry? (t : TryRegion) : Option Nat :=
  let exits := (t.covered.flatMap g.succs).filter fun b =>
    !t.covered.contains b && !t.handlers.any fun h => h.block == b
  (exits.mergeSort fun a b => (g.block a).start ≤ (g.block b).start).head?

def handlerBody (walk : Walk) (s : Scope) (b : Nat) : StateM Progress Region := do
  if (← get).placed.contains b then jumpTo g b "handler shared with another try"
  else return ofList (← walk s false b)

/-- The handlers of a guarded range. A block that handles several exceptions is given once. -/
def catchesOf (walk : Walk) (s : Scope) (seen : List Nat) : List HandlerBlock →
    StateM Progress (List (CatchHead × Region))
  | [] => return []
  | h :: rest =>
    if seen.contains h.block then catchesOf walk s seen rest
    else do
      let body ← handlerBody g walk s h.block
      return (⟨h.exception, h.block⟩, body) :: (← catchesOf walk s (h.block :: seen) rest)

def tryRegionAt (walk : Walk) (s : Scope) (asBody : Bool) (n : Nat) (t : TryRegion) :
    StateM Progress (List Region × Option Nat) := do
  modify (Progress.guard n)
  let merge := (exitOfTry? g t).filter s.accepts
  let allowed := s.allowed.elim t.covered fun outer => t.covered.filter outer.contains
  match t.covered with
  | [] => return ([], none)
  | start :: _ =>
    let body ← walk ⟨merge, s.frames, some allowed⟩ asBody start
    let catches ← catchesOf g walk { s with follow := merge } [] t.handlers
    return ([.guarded (ofList body) catches], merge)

/-- How a loop decides to go on: the block with the comparison, whether it counts the other way round, the block
after the loop, and the first block of its body where that is not the header. -/
structure LoopShape where
  kind : LoopKind
  cond : Option Nat
  negated : Bool
  exit : Option Nat
  inner : Option Nat

/-- A loop whose header decides between the loop and one way out of it. -/
def whileShape? (l : Loop) : Option LoopShape :=
  match (g.block l.header).endsInIf, g.succs l.header with
  | true, [fall, target] =>
    let fallIn := l.body.contains fall
    let targetIn := l.body.contains target
    let inner := if fallIn then fall else target
    if fallIn != targetIn && inner != l.header then
      some ⟨.whileDo, some l.header, !targetIn, some (if fallIn then target else fall), some inner⟩
    else none
  | _, _ => none

/-- A loop whose only latch decides between the header and one way out of the loop. -/
def doWhileShape? (l : Loop) : Option LoopShape :=
  match l.latches with
  | [latch] => match (g.block latch).endsInIf, g.succs latch with
    | true, [fall, target] =>
      let shape (out : Nat) (negated : Bool) : Option LoopShape :=
        if l.body.contains out then none else some ⟨.doWhile, some latch, negated, some out, none⟩
      if target = l.header then shape fall false
      else if fall = l.header then shape target true
      else none
    | _, _ => none
  | _ => none

/-- The first way out of a loop, in the order of control, that is no tail. -/
def endlessExit? (p : Progress) (l : Loop) : Option Nat :=
  let ordered := l.body.mergeSort fun a b => d.orderIndex a ≤ d.orderIndex b
  (ordered.flatMap g.succs).find? fun b => !l.body.contains b && !isTail g d p b

def loopShape (p : Progress) (l : Loop) : LoopShape :=
  ((whileShape? g l).orElse fun _ => doWhileShape? g l).getD ⟨.endless, none, false, endlessExit? g d p l, none⟩

/-- The next round begins at the end of the body anyway. -/
def withoutLastContinue (items : List Region) : List Region :=
  match items.getLast? with
  | some (.cont none) => items.dropLast
  | _ => items

/-- The body of a loop. The header of a `while` loop, and a block that is all of a loop, are placed at once. -/
def loopItems (walk : Walk) (s : Scope) (header : Nat) (latch inner : Option Nat) : StateM Progress (List Region) := do
  match inner with
  | some inner => do
    modify (Progress.place header)
    walk s false inner
  | none =>
    if latch = some header then do
      modify (Progress.place header)
      return [.block header]
    else walk s true header

def loopRegionAt (walk : Walk) (s : Scope) (l : Loop) : StateM Progress (List Region × Option Nat) := do
  let shape := loopShape g d (← get) l
  let latch := if shape.kind = .doWhile then shape.cond else none
  let s : Scope := ⟨none, .loop l.header shape.exit l.body latch :: s.frames, s.allowed⟩
  let body ← loopItems walk s l.header latch shape.inner
  return ([.loop shape.kind l.header shape.cond shape.negated (ofList (withoutLastContinue body))], shape.exit)

def plainAt (walk : Walk) (s : Scope) (b : Nat) : StateM Progress (List Region × Option Nat) := do
  modify (Progress.place b)
  match (g.block b).exitOp? with
  | some (.jumpIf ..) => do
    let (r, next) ← branchAt g d walk s b
    return ([r], next)
  | some (.switchOn keys targets _) => do
    let (r, next) ← switchAt g d walk s b keys targets
    return ([r], next)
  | some .ret | some .throw => return ([.block b], none)
  | _ => return ([.block b], (g.succs b).head?)

def tryOrPlainAt (walk : Walk) (s : Scope) (asBody : Bool) (b : Nat) : StateM Progress (List Region × Option Nat) := do
  match tryAt? g (← get) b with
  | some (n, t) => tryRegionAt g walk s asBody n t
  | none => plainAt g d walk s b

/-- A loop at a block. A guarded range that is not part of it comes first. -/
def loopAt (walk : Walk) (s : Scope) (l : Loop) : StateM Progress (List Region × Option Nat) := do
  match tryAt? g (← get) l.header with
  | some (n, t) => if t.covered.all l.body.contains then loopRegionAt g d walk s l else tryRegionAt g walk s false n t
  | none => loopRegionAt g d walk s l

/-- A block that control comes to: a jump out of a construct around it, or what starts at it, and the block that
comes after that. -/
def regionAt (walk : Walk) (s : Scope) (b : Nat) : StateM Progress (List Region × Option Nat) := do
  match Frame.jump? b [] s.frames with
  | some jump => do
    modify fun p => p.labelLoop jump
    return ([jump], none)
  | none =>
    let isPlaced := (← get).placed.contains b
    if s.latch? = some b && !isPlaced then do
      modify (Progress.place b)
      return ([.block b], none)
    else if !(s.inLoop b && s.inTry b) then return (← leave g d walk (!s.inTry b) b, none)
    else if isPlaced then return ([← jumpTo g b "block reached twice"], none)
    else match d.loopAt? b with
      | some l => loopAt g d walk s l
      | none => tryOrPlainAt g d walk s false b

/-- Follows control in a graph. Each block and each guarded range is placed once, and three steps at most lead
from one of them to the next, which bounds the depth. -/
def follow : Nat → Walk
  | 0 => fun _ _ _ => return []
  | depth + 1 => fun s asBody b => do
    let walk := follow depth
    if !asBody && s.follow == some b then return []
    else
      let (items, next) ← if asBody then tryOrPlainAt g d walk s true b else regionAt g d walk s b
      match next with
      | none => return items
      | some n => return items ++ (← walk s false n)

def depthBound : Nat := 4 * (g.size + g.tries.length + 1)

def whole (b : Nat) : StateM Progress (List Region) := follow g d (depthBound g) .outermost false b

/-- Adds the blocks that explicit jumps go to and that no other way has led to, each with a label. -/
def rest : List Nat → StateM Progress (List Region)
  | [] => return []
  | b :: bs => do
    if (← get).placed.contains b then rest bs
    else
      modify (Progress.label b)
      let items ← whole g d b
      return items ++ (← rest bs)

def everything : StateM Progress (List Region) := do
  let items ← whole g d g.entry
  return items ++ (← rest g d (List.range g.size))

end Region

namespace Structured

def ofBlocks (g : Graph) : Structured :=
  let order := (List.range g.size).mergeSort fun a b => (g.block a).start ≤ (g.block b).start
  { root := .seq (order.map .raw)
    labels := .ofList ((List.range g.size).flatMap g.exits)
    loopLabels := .empty
    diagnostics := [⟨.structuringFallback, "irreducible control flow rendered with explicit gotos"⟩]
    irreducible := true }

def of (g : Graph) : Structured :=
  let d := Dominance.of g
  if d.irreducible then ofBlocks g
  else
    let (items, p) := (Region.everything g d).run .start
    ⟨.ofList items, p.labels, p.loopLabels, p.diagnostics, false⟩

end Structured

end JavaLift
