import JavaLift.Insn.Op
import JavaLift.NatSet

/-!
Instructions. An argument is a register, a literal or another instruction whose value is used in place. Such an
inner instruction keeps the register it wrote, which then is no assignment any more.
-/

namespace JavaLift

/-- A register operand. A wide value also takes the register after it. `var` is the variable that the register
stands for in this place, once variables are known. -/
structure Register where
  reg : Nat
  wide : Bool
  type : Ty
  var : Option Nat
deriving DecidableEq, Inhabited

namespace Register

def plain (reg : Nat) : Register := ⟨reg, false, .unknown, none⟩

def typed (reg : Nat) (type : Ty) : Register := ⟨reg, type.isWide, type, none⟩

def cells (r : Register) : List Nat := if r.wide then [r.reg, r.reg + 1] else [r.reg]

end Register

structure Head where
  op : Op
  result : Option Register
  offset : Nat
  line : Option Nat
deriving DecidableEq, Inhabited

/-- An argument. The value of a literal is an integer or the bits of a floating point number. -/
inductive Arg where
  | reg (r : Register)
  | lit (value : Int) (type : Ty)
  | tree (head : Head) (args : List Arg)
deriving Inhabited

structure Insn extends Head where
  args : List Arg
deriving Inhabited

namespace Arg

def ofReg (reg : Nat) : Arg := .reg (.plain reg)

def ofTyped (reg : Nat) (type : Ty) : Arg := .reg (.typed reg type)

def reg? : Arg → Option Register
  | .reg r => some r
  | _ => none

def insn? : Arg → Option Insn
  | .tree head args => some ⟨head, args⟩
  | _ => none

def type : Arg → Ty
  | .reg r => r.type
  | .lit _ type => type
  | .tree head _ => match head.result with
    | some r => r.type
    | none => .unknown

end Arg

namespace Insn

def of (op : Op) (args : List Arg) (result : Option Register) (offset : Nat) : Insn :=
  ⟨⟨op, result, offset, none⟩, args⟩

def toArg (i : Insn) : Arg := .tree i.toHead i.args

def conditionArgs (i : Insn) : List Arg := i.args.take i.op.conditions

def valueArgs (i : Insn) : List Arg := i.args.drop i.op.conditions

end Insn

end JavaLift
