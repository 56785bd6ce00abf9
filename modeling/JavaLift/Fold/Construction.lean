import JavaLift.DefUse.Chain

/-!
Creation of objects: making an instance, perhaps copying its register, and calling the constructor become one
instruction. Where the instance is already in the place of the receiver, the value of the call is not kept.
-/

namespace JavaLift

/-- A call of a constructor at `init` in a block, the position at which its receiver is made and the position of
a copy in between. -/
structure Construction where
  block : Nat
  created : Option Nat
  copied : Option Nat
  init : Nat
deriving DecidableEq

namespace Construction

/-- The method that an instruction calls on an object that is not ready yet. -/
def calledConstructor? (i : Insn) : Option MethodRef :=
  match i.op with
  | .invoke .direct m => if m.isConstructor then some m else none
  | _ => none

def isNew (i : Insn) : Bool :=
  match i.op with
  | .newInstance _ => true
  | _ => false

def makesReceiver (i : Insn) : Bool := (i.args.head?.bind Arg.insn?).any isNew

/-- The position in the block of the only definition that reaches the first argument of an instruction. -/
def sourceOf? (c : Chain) (block pos : Nat) : Option (Nat × Nat) := do
  let use ← c.useAt? block pos [.arg 0]
  match c.reaching use with
  | [d] => match (← c.defs[d]?).site with
    | .insn b p => if b = block then some (d, p) else none
    | .entry => none
  | _ => none

def origin? (insns : List Insn) (c : Chain) (block init : Nat) : Option (Nat × Nat × Option Nat) := do
  let (d, pos) ← sourceOf? c block init
  let i ← insns[pos]?
  if isNew i then return (d, pos, none)
  else if i.op = .move && c.isSingleUse d then
    let (source, sourcePos) ← sourceOf? c block pos
    if isNew (← insns[sourcePos]?) then return (source, sourcePos, some pos) else none
  else none

/-- The new instance is read nowhere in the block up to the call but by the copy and the call. -/
def isUnread (c : Chain) (d block init : Nat) (copied : Option Nat) : Bool :=
  (c.usesOfDef d).all fun id => (c.uses[id]?).all fun u =>
    u.block != block || (u.pos == init && u.path == [.arg 0]) || copied == some u.pos || decide (init < u.pos)

def plan? (insns : List Insn) (c : Chain) (block : Nat) (i : Insn) (init : Nat) : Option Construction :=
  if (calledConstructor? i).isNone then none
  else if makesReceiver i then some ⟨block, none, none, init⟩
  else do
    let (d, created, copied) ← origin? insns c block init
    if isUnread c d block init copied then some ⟨block, some created, copied, init⟩ else none

def plansOf (c : Chain) (block : Nat) (insns : List Insn) : List Construction :=
  insns.zipIdx.filterMap fun (i, pos) => plan? insns c block i pos

def plans (g : Graph) (c : Chain) : List Construction :=
  g.blocks.toList.zipIdx.flatMap fun (block, b) => plansOf c b block.insns

/-- The register that receives the new object. It keeps its variable, if it has one. -/
def resultOf (i : Insn) : Option Register :=
  match i.result, i.op with
  | some r, .newInstance t => some (if r.var.isSome then r else .typed r.reg t)
  | r, _ => r

def construct (result : Option Register) (i : Insn) : Insn :=
  match calledConstructor? i with
  | some m => ⟨{ i.toHead with op := .construct m, result := result }, i.args.tail⟩
  | none => i

def apply (insns : List Insn) (p : Construction) : List Insn :=
  insns.modify p.init (construct (p.created.bind fun pos => (insns[pos]?).bind resultOf))

def spare (p : Construction) : List Nat := p.created.toList ++ p.copied.toList

/-- Folds all calls in a block and takes out what they leave without use, from the end on. -/
def applyAll (plans : List Construction) (insns : List Insn) : List Insn :=
  let positions := (plans.flatMap spare).mergeSort fun a b => b ≤ a
  positions.foldl (fun insns pos => insns.eraseIdx pos) (plans.foldl apply insns)

def foldAll (g : Graph) (c : Chain) : Graph × Nat :=
  let all := plans g c
  ({ g with blocks := g.blocks.mapIdx fun b block =>
      { block with insns := applyAll (all.filter (·.block == b)) block.insns } },
    all.length)

end Construction

end JavaLift
