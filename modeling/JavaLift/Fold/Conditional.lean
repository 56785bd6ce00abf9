import JavaLift.Flow.Graph
import JavaLift.Region.Basic

namespace JavaLift

/-- The graph so far and the headers folded, each with its two arms if these assign a register. -/
structure Conditionals where
  graph : Graph
  folded : List (Nat × Option (Nat × Nat))

namespace Conditionals

def isArm (g : Graph) (b header : Nat) : Bool := g.preds b == [header] && (g.exceptionPreds b).isEmpty

/-- The value that a block returns, if it does nothing else. -/
def returned? (g : Graph) (b header : Nat) : Option (Head × Arg) :=
  if isArm g b header then
    match (g.block b).insns with
    | [i] => match i.op, i.args with
      | .ret, [value] => some (i.toHead, value)
      | _, _ => none
    | _ => none
  else none

def isWork (i : Insn) : Bool :=
  match i.op with
  | .goto _ | .nop => false
  | _ => true

def isAssignment (i : Insn) : Bool :=
  i.result.isSome && !i.op.isTerminator && match i.op with
    | .moveException _ => false
    | _ => true

/-- The assignment that a block makes, if it does nothing else, under the handlers of the header. -/
def assigned? (g : Graph) (b header : Nat) : Option Insn :=
  if isArm g b header && g.handlers b == g.handlers header && (g.succs b).length == 1 then
    match (g.block b).insns.filter isWork with
    | [i] => if isAssignment i then some i else none
    | _ => none
  else none

def valueOf (i : Insn) : Arg :=
  match i.op, i.args with
  | .move, [value] => value
  | _, _ => i.toArg

def comparison? (insns : List Insn) : Option (CmpOp × Insn × List Insn) := do
  let last ← insns.getLast?
  match last.op with
  | .jumpIf cmp _ => some (cmp, last, insns.dropLast)
  | _ => none

def choice (cmp : CmpOp) (negated : Bool) (comparison : Insn) (values : List Arg) (result : Option Register) : Insn :=
  let cmp := if negated then cmp.negate else cmp
  ⟨⟨.ternary cmp comparison.args.length, result, comparison.offset, comparison.line⟩, comparison.args ++ values⟩

/-- Puts an instruction in the place of a comparison and empties its arms. -/
def closed (g : Graph) (header : Nat) (insns : List Insn) (last : Insn) (a b : Nat) : Graph :=
  ((g.setInsns header (insns ++ [last])).setInsns a []).setInsns b []

def foldAssignments? (g : Graph) (r : Region) : Option (Graph × Nat × Nat × Nat) :=
  match r with
  | .branch header negated (.block a) (some (.block b)) => do
    let x ← assigned? g a header
    let y ← assigned? g b header
    if x.result.map (·.reg) = y.result.map (·.reg) ∧ g.succs a = g.succs b then
      let (cmp, comparison, insns) ← comparison? (g.block header).insns
      let value := choice cmp negated comparison [valueOf x, valueOf y] x.result
      return (closed g header insns value a b, header, a, b)
    else none
  | _ => none

/-- The arms of a comparison that are single blocks. Without an else part, `next` is the other arm. -/
def armsOf? (r : Region) (next : Option Region) : Option (Nat × Bool × Nat × Nat) :=
  match r with
  | .branch header negated (.block a) elsePart => match elsePart <|> next with
    | some (.block b) => some (header, negated, a, b)
    | _ => none
  | _ => none

def foldReturns? (g : Graph) (r : Region) (next : Option Region) : Option (Graph × Nat) := do
  let (header, negated, a, b) ← armsOf? r next
  let (head, x) ← returned? g a header
  let (_, y) ← returned? g b header
  let (cmp, comparison, insns) ← comparison? (g.block header).insns
  let value := choice cmp negated comparison [x, y] none
  return (closed g header insns ⟨⟨.ret, none, head.offset, head.line⟩, [value.toArg]⟩ a b, header)

def note (c : Conditionals) (g : Graph) (header : Nat) (arms : Option (Nat × Nat)) : Conditionals :=
  ⟨g, (header, arms) :: c.folded.filter (·.1 != header)⟩

def foldBranch (r : Region) : StateM Conditionals Region := do
  let c ← get
  match foldAssignments? c.graph r with
  | some (g, header, a, b) => do
    set (c.note g header (some (a, b)))
    return .block header
  | none => match foldReturns? c.graph r none with
    | some (g, header) => do
      set (c.note g header none)
      return .block header
    | none => return r

def hasElse : Region → Bool
  | .branch _ _ _ none => false
  | _ => true

/-- Folds the comparisons of a sequence whose second arm is the item after them. -/
def foldReturns : List Region → StateM Conditionals (List Region)
  | [] => return []
  | [r] => do
    let c ← get
    match foldReturns? c.graph r none with
    | some (g, header) => do
      set (c.note g header none)
      return [.block header]
    | none => return [r]
  | r :: next :: rest => do
    let c ← get
    match foldReturns? c.graph r (some next) with
    | some (g, header) => do
      set (c.note g header none)
      if hasElse r then return .block header :: (← foldReturns (next :: rest))
      else return .block header :: (← foldReturns rest)
    | none => return r :: (← foldReturns (next :: rest))

/-- Only the emptied arms of a folded header lead to the block, so it can join the header. -/
def absorbs (c : Conditionals) (header merge : Nat) : Bool :=
  match (c.folded.lookup header).join with
  | none => false
  | some (a, b) =>
    let g := c.graph
    let preds := g.preds merge
    !preds.isEmpty && preds.all (fun p => p == a || p == b)
      && [a, b].all (fun arm => arm != header && (g.block arm).insns.isEmpty)
      && (g.exceptionPreds merge).isEmpty && g.handlers merge == g.handlers header
      && !(g.block header).insns.getLast?.any fun i => i.op.isTerminator

def absorb (c : Conditionals) (header merge : Nat) : Conditionals :=
  let moved := (c.graph.block merge).insns
  let g := c.graph.setInsns merge []
  { c with graph := g.setInsns header ((g.block header).insns ++ moved) }

def absorbAll : Region → List Region → StateM Conditionals (List Region)
  | r, [] => return [r]
  | r, next :: rest => do
    let c ← get
    match r, next with
    | .block header, .block merge =>
      if c.absorbs header merge then do
        set (c.absorb header merge)
        absorbAll r rest
      else return r :: (← absorbAll next rest)
    | _, _ => return r :: (← absorbAll next rest)

def foldSequence (items : List Region) : StateM Conditionals (List Region) := do
  match ← foldReturns items with
  | [] => return []
  | r :: rest => absorbAll r rest

/-- Folds what can be folded at one region, after all inside it. -/
def foldAt : Region → StateM Conditionals Region
  | .seq items => do return .seq (← foldSequence items)
  | .branch header negated thenPart elsePart => foldBranch (.branch header negated thenPart elsePart)
  | r => return r

def foldAll (g : Graph) (root : Region) : Graph × Region × Nat :=
  let (root, c) := (root.transform foldAt).run ⟨g, []⟩
  (c.graph, root, c.folded.length)

end Conditionals

end JavaLift
