import JavaLift.Insn.Basic

namespace JavaLift

inductive Slot where
  | cond (index : Nat)
  | arg (index : Nat)
deriving DecidableEq

/-- A position below an instruction, from the outermost argument inwards. -/
abbrev ArgPath := List Slot

namespace Slot

/-- The slot of the argument with the given number, when `conditions` of them belong to a comparison. -/
def ofIndex (conditions i : Nat) : Slot := if i < conditions then .cond i else .arg (i - conditions)

def index? (conditions : Nat) : Slot → Option Nat
  | .cond i => if i < conditions then some i else none
  | .arg i => some (conditions + i)

def render : Slot → String
  | .cond i => "Cond(" ++ toString i ++ ")"
  | .arg i => "Arg(" ++ toString i ++ ")"

end Slot

namespace Arg

mutual

/-- The nodes of a tree, each before those below it. -/
def heads : Arg → List Head
  | .reg _ | .lit .. => []
  | .tree head args => head :: headsOf args

def headsOf : List Arg → List Head
  | [] => []
  | a :: rest => heads a ++ headsOf rest

end

mutual

/-- The registers that a tree reads, in the order of evaluation, each with its position. -/
def reads : Arg → List (ArgPath × Register)
  | .reg r => [([], r)]
  | .lit .. => []
  | .tree head args => readsFrom head.op.conditions 0 args

def readsFrom (conditions i : Nat) : List Arg → List (ArgPath × Register)
  | [] => []
  | a :: rest =>
    (reads a).map (fun (path, r) => (Slot.ofIndex conditions i :: path, r)) ++ readsFrom conditions (i + 1) rest

end

mutual

def canReorder : Arg → Bool
  | .reg _ | .lit .. => true
  | .tree head args => head.op.canReorder && allReorder args

def allReorder : List Arg → Bool
  | [] => true
  | a :: rest => canReorder a && allReorder rest

end

def atPath? : ArgPath → Arg → Option Arg
  | [], a => some a
  | s :: rest, .tree head args => do
    let i ← s.index? head.op.conditions
    let a ← args[i]?
    atPath? rest a
  | _ :: _, _ => none

def modifyAt? (f : Arg → Option Arg) : ArgPath → Arg → Option Arg
  | [], a => f a
  | s :: rest, .tree head args => do
    let i ← s.index? head.op.conditions
    let a ← args[i]?
    let b ← modifyAt? f rest a
    return .tree head (args.set i b)
  | _ :: _, _ => none

end Arg

namespace Insn

def slots (i : Insn) : List (Slot × Arg) :=
  i.args.zipIdx.map fun (a, n) => (Slot.ofIndex i.op.conditions n, a)

def heads (i : Insn) : List Head := i.toArg.heads

def reads (i : Insn) : List (ArgPath × Register) := i.toArg.reads

/-- The numbers of the registers read, both of a wide value. -/
def readCells (i : Insn) : List Nat := i.reads.flatMap fun (_, r) => r.cells

def writeCells (i : Insn) : List Nat := i.heads.flatMap fun h => h.result.elim [] Register.cells

def canReorder (i : Insn) : Bool := i.toArg.canReorder

/-- What stands at a path; the empty path is no argument. -/
def argAt? (i : Insn) (path : ArgPath) : Option Arg := if path.isEmpty then none else i.toArg.atPath? path

def modifyAt? (i : Insn) (path : ArgPath) (f : Arg → Option Arg) : Option Insn :=
  if path.isEmpty then none else (i.toArg.modifyAt? f path).bind Arg.insn?

/-- Puts an instruction in the place of the register at a path. -/
def wrapAt? (i : Insn) (path : ArgPath) (inner : Insn) : Option Insn :=
  i.modifyAt? path fun a => if a.reg?.isSome then some inner.toArg else none

end Insn

end JavaLift
