import JavaLift.Insn.Op

namespace JavaLift.Dalvik

inductive ValueKind where
  | single | wide | object
deriving DecidableEq

inductive MoveWidth where
  | nibbles | byteUnit | units
deriving DecidableEq

inductive ElementKind where
  | single | wide | object | boolean | byte | char | short
deriving DecidableEq

/-- A comparison of two numbers with an int as its result; the first four differ in what NaN gives. -/
inductive CompareKind where
  | lessFloat | greaterFloat | lessDouble | greaterDouble | long
deriving DecidableEq

inductive NumberType where
  | int | long | float | double
deriving DecidableEq

namespace ValueKind

def all : List ValueKind := [.single, .wide, .object]

def index : ValueKind → Nat
  | .single => 0
  | .wide => 1
  | .object => 2

end ValueKind

namespace MoveWidth

def all : List MoveWidth := [.nibbles, .byteUnit, .units]

def index : MoveWidth → Nat
  | .nibbles => 0
  | .byteUnit => 1
  | .units => 2

end MoveWidth

namespace ElementKind

def all : List ElementKind := [.single, .wide, .object, .boolean, .byte, .char, .short]

def index : ElementKind → Nat
  | .single => 0
  | .wide => 1
  | .object => 2
  | .boolean => 3
  | .byte => 4
  | .char => 5
  | .short => 6

def type : ElementKind → Ty
  | .single => .narrow (.ofList [.int, .float])
  | .wide => .narrow .wide
  | .object => .unknown
  | .boolean => .boolean
  | .byte => .byte
  | .char => .char
  | .short => .short

end ElementKind

namespace CompareKind

def all : List CompareKind := [.lessFloat, .greaterFloat, .lessDouble, .greaterDouble, .long]

def type : CompareKind → Ty
  | .lessFloat | .greaterFloat => .float
  | .lessDouble | .greaterDouble => .double
  | .long => .long

end CompareKind

namespace NumberType

def type : NumberType → Ty
  | .int => .int
  | .long => .long
  | .float => .float
  | .double => .double

end NumberType

/-- The operations with one operand, in the order of their opcodes. -/
def unaryOps : List Op := [
  .neg .int, .not .int, .neg .long, .not .long, .neg .float, .neg .double,
  .cast .int .long, .cast .int .float, .cast .int .double,
  .cast .long .int, .cast .long .float, .cast .long .double,
  .cast .float .int, .cast .float .long, .cast .float .double,
  .cast .double .int, .cast .double .long, .cast .double .float,
  .cast .int .byte, .cast .int .char, .cast .int .short]

/-- An opcode. `wideLiteral` tells a literal of sixteen bits from one of eight, for which there are all operators;
`range` tells registers that follow one another from registers given one by one. -/
inductive Opcode where
  | nop
  | move (kind : ValueKind) (width : MoveWidth)
  | moveResult (kind : ValueKind)
  | moveException
  | returnVoid
  | ret (kind : ValueKind)
  | const4 | const16 | const32 | constHigh16
  | constWide16 | constWide32 | constWide64 | constWideHigh16
  | constString | constStringJumbo | constClass
  | monitorEnter | monitorExit
  | checkCast | instanceOf | arrayLength | newInstance | newArray
  | filledNewArray (range : Bool)
  | fillArrayData
  | throw
  | goto8 | goto16 | goto32
  | packedSwitch | sparseSwitch
  | compare (kind : CompareKind)
  | ifCmp (cmp : CmpOp)
  | ifZero (cmp : CmpOp)
  | arrayGet (kind : ElementKind)
  | arrayPut (kind : ElementKind)
  | instanceGet (kind : ElementKind)
  | instancePut (kind : ElementKind)
  | staticGet (kind : ElementKind)
  | staticPut (kind : ElementKind)
  | invoke (kind : InvokeKind) (range : Bool)
  | unary (index : Nat)
  | binary (op : ArithOp) (type : NumberType)
  | binaryTwo (op : ArithOp) (type : NumberType)
  | binaryLiteral (op : ArithOp) (wideLiteral : Bool)
deriving DecidableEq

namespace Opcode

def binaryOps : List (ArithOp × NumberType) :=
  ArithOp.all.map (·, .int) ++ ArithOp.all.map (·, .long) ++ (ArithOp.all.take 5).map (·, .float)
    ++ (ArithOp.all.take 5).map (·, .double)

/-- The opcodes that the decoder knows: runs of them, each with the number of its first one. -/
def families : List (Nat × List Opcode) := [
  (0x00, [.nop]),
  (0x01, ValueKind.all.flatMap fun kind => MoveWidth.all.map (.move kind)),
  (0x0a, ValueKind.all.map .moveResult),
  (0x0d, [.moveException]),
  (0x0e, [.returnVoid]),
  (0x0f, ValueKind.all.map .ret),
  (0x12, [.const4, .const16, .const32, .constHigh16]),
  (0x16, [.constWide16, .constWide32, .constWide64, .constWideHigh16]),
  (0x1a, [.constString, .constStringJumbo, .constClass]),
  (0x1d, [.monitorEnter, .monitorExit]),
  (0x1f, [.checkCast, .instanceOf, .arrayLength, .newInstance, .newArray]),
  (0x24, [.filledNewArray false, .filledNewArray true, .fillArrayData]),
  (0x27, [.throw]),
  (0x28, [.goto8, .goto16, .goto32]),
  (0x2b, [.packedSwitch, .sparseSwitch]),
  (0x2d, CompareKind.all.map .compare),
  (0x32, CmpOp.all.map .ifCmp),
  (0x38, CmpOp.all.map .ifZero),
  (0x44, ElementKind.all.map .arrayGet),
  (0x4b, ElementKind.all.map .arrayPut),
  (0x52, ElementKind.all.map .instanceGet),
  (0x59, ElementKind.all.map .instancePut),
  (0x60, ElementKind.all.map .staticGet),
  (0x67, ElementKind.all.map .staticPut),
  (0x6e, InvokeKind.all.map (.invoke · false)),
  (0x74, InvokeKind.all.map (.invoke · true)),
  (0x7b, (List.range unaryOps.length).map .unary),
  (0x90, binaryOps.map fun (op, type) => .binary op type),
  (0xb0, binaryOps.map fun (op, type) => .binaryTwo op type),
  (0xd0, (ArithOp.all.take 8).map (.binaryLiteral · true)),
  (0xd8, ArithOp.all.map (.binaryLiteral · false))]

def ofByte? (b : Nat) : Option Opcode :=
  families.findSome? fun (first, run) => if first ≤ b then run[b - first]? else none

end Opcode

end JavaLift.Dalvik
