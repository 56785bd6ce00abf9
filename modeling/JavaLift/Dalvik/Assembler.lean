import JavaLift.Body
import JavaLift.Dalvik.Code
import JavaLift.Dalvik.Opcode
import JavaLift.Text.Quoted

/-!
An assembler for Dalvik code. Jumps name labels; the tables of switches are laid out after the last
instruction, each at an even position. The first fault found on the way is the one reported.
-/

namespace JavaLift.Dalvik

inductive AsmFault where
  | undefinedLabel (label : String)
  | duplicateLabel (label : String)
  | outOfRange (label : String) (offset bits : Nat)
  | register (reg bits offset : Nat)
deriving DecidableEq

def AsmFault.message : AsmFault → String
  | .undefinedLabel label => "undefined label " ++ Text.quoted label
  | .duplicateLabel label => "label " ++ Text.quoted label ++ " defined twice"
  | .outOfRange label offset bits =>
    "branch to " ++ Text.quoted label ++ " at " ++ Text.offset offset ++ " does not fit in " ++ toString bits
      ++ " bits"
  | .register reg bits offset =>
    "register v" ++ toString reg ++ " does not fit in " ++ toString bits ++ " bits at " ++ Text.offset offset

/-- A line of a program. Registers are given by number, pool entries by index, jumps by label. The variants of an
instruction are counted in the order of their opcodes: the types that are compared, the sorts of array elements, and
the operators that take a literal. -/
inductive Stmt where
  | raw (unit : Nat)
  | label (name : String)
  | line (number : Nat)
  | tryRange (start stop : String) (handlers : List (Option String × String))
  | nop
  | move (kind : ValueKind) (dst src : Nat)
  | moveResult (kind : ValueKind) (dst : Nat)
  | moveException (dst : Nat)
  | returnVoid
  | ret (kind : ValueKind) (reg : Nat)
  | const (dst : Nat) (value : Int)
  | constWide (dst : Nat) (value : Int)
  | constString (dst index : Nat)
  | constClass (dst index : Nat)
  | monitorEnter (reg : Nat)
  | monitorExit (reg : Nat)
  | checkCast (reg index : Nat)
  | instanceOf (dst src index : Nat)
  | arrayLength (dst array : Nat)
  | newInstance (dst index : Nat)
  | newArray (dst size index : Nat)
  | throw (reg : Nat)
  | goto8 (label : String)
  | goto16 (label : String)
  | goto32 (label : String)
  | ifCmp (cmp : CmpOp) (a b : Nat) (label : String)
  | ifZero (cmp : CmpOp) (reg : Nat) (label : String)
  | packedSwitch (reg : Nat) (first : Int) (targets : List String)
  | sparseSwitch (reg : Nat) (cases : List (Int × String))
  | compare (variant dst a b : Nat)
  | arrayGet (variant dst array index : Nat)
  | arrayPut (variant src array index : Nat)
  | instanceGet (kind : ElementKind) (dst object index : Nat)
  | instancePut (kind : ElementKind) (src object index : Nat)
  | staticGet (kind : ElementKind) (dst index : Nat)
  | staticPut (kind : ElementKind) (src index : Nat)
  | invoke (kind : InvokeKind) (index : Nat) (regs : List Nat)
  | invokeRange (kind : InvokeKind) (index first count : Nat)
  | unary (opcode dst src : Nat)
  | binary (op : ArithOp) (dst a b : Nat)
  | binaryTwo (op : ArithOp) (dst src : Nat)
  | binaryLiteral (variant dst src : Nat) (value : Int)

inductive Reach where
  | byte | unit | word
deriving DecidableEq

def Reach.bits : Reach → Nat
  | .byte => 8
  | .unit => 16
  | .word => 32

/-- A distance to fill in at unit `place`, counted from the instruction at `pc`. -/
structure Fixup where
  pc : Nat
  place : Nat
  label : String
  reach : Reach

/-- The keys of a switch: the first of a run, or each by itself. -/
inductive SwitchKeys where
  | packed (first : Int)
  | sparse (keys : List Int)

structure PendingSwitch where
  pc : Nat
  keys : SwitchKeys
  targets : List String

structure PendingTry where
  start : String
  stop : String
  handlers : List (Option String × String)

structure Assembler where
  units : Array UInt16
  labels : List (String × Nat)
  fixups : List Fixup
  switches : List PendingSwitch
  tries : List PendingTry
  lines : List LineEntry
  fault : Option AsmFault

namespace Assembler

def empty : Assembler := ⟨#[], [], [], [], [], [], none⟩

def pc (a : Assembler) : Nat := a.units.size

/-- Keeps the first fault. -/
def fail (a : Assembler) (fault : AsmFault) : Assembler := { a with fault := a.fault <|> some fault }

def fit (a : Assembler) (bits reg : Nat) : Assembler :=
  if reg < 1 <<< bits then a else a.fail (.register reg bits a.pc)

/-- Adds a unit; a larger number loses its high bits. -/
def emit (a : Assembler) (unit : Nat) : Assembler := { a with units := a.units.push (UInt16.ofNat unit) }

def emitAll (a : Assembler) (units : List Nat) : Assembler := units.foldl emit a

/-- The two units of a number, the low one first. -/
def wordUnits (i : Int) : List Nat := [(i % 0x10000).toNat, (i / 0x10000 % 0x10000).toNat]

def byteForm (a : Assembler) (opcode : Nat) (reg : Nat) : Assembler :=
  (a.fit 8 reg).emit (opcode + 256 * (reg % 256))

/-- An opcode and two registers in half a byte each. -/
def nibbleForm (a : Assembler) (opcode : Nat) (low high : Nat) : Assembler :=
  ((a.fit 4 low).fit 4 high).emit (opcode + 256 * (low % 16) + 4096 * (high % 16))

/-- An opcode and three registers, the second and third of them in a unit of their own. -/
def tripleForm (a : Assembler) (opcode : Nat) (reg low high : Nat) : Assembler :=
  (((a.fit 8 low).fit 8 high).byteForm opcode reg).emit (low % 256 + 256 * (high % 256))

/-- Notes that the unit at `place` depends on a label. -/
def jump (a : Assembler) (pc place : Nat) (label : String) (reach : Reach) : Assembler :=
  { a with fixups := a.fixups ++ [⟨pc, place, label, reach⟩] }

def const (a : Assembler) (dst : Nat) (value : Int) : Assembler :=
  if -8 ≤ value ∧ value < 8 ∧ dst < 16 then
    a.emit (0x12 + 256 * dst + 4096 * (value % 16).toNat)
  else if -0x8000 ≤ value ∧ value < 0x8000 then
    (a.byteForm 0x13 dst).emit (value % 0x10000).toNat
  else if value % 0x10000 = 0 then
    (a.byteForm 0x15 dst).emit (value / 0x10000 % 0x10000).toNat
  else (a.byteForm 0x14 dst).emitAll (wordUnits value)

def constWide (a : Assembler) (dst : Nat) (value : Int) : Assembler :=
  if -0x8000 ≤ value ∧ value < 0x8000 then
    (a.byteForm 0x16 dst).emit (value % 0x10000).toNat
  else if -0x80000000 ≤ value ∧ value < 0x80000000 then
    (a.byteForm 0x17 dst).emitAll (wordUnits value)
  else (a.byteForm 0x18 dst).emitAll (wordUnits value ++ wordUnits (value / 0x100000000))

/-- A switch; its table is laid out at the end. -/
def switch (a : Assembler) (opcode reg : Nat) (keys : SwitchKeys) (targets : List String) : Assembler :=
  let b := (a.byteForm opcode reg).emitAll [0, 0]
  { b with switches := b.switches ++ [⟨a.pc, keys, targets⟩] }

/-- A call with up to five registers; what is beyond that is left out. -/
def invoke (a : Assembler) (kind : InvokeKind) (index : Nat) (regs : List Nat) : Assembler :=
  let named := regs.take 5
  let b := named.foldl (fun b r => b.fit 4 r) a
  let nibble (i : Nat) := (named[i]?).getD 0 % 16
  b.emitAll [
    0x6e + kind.index + 256 * nibble 4 + 4096 * named.length,
    index,
    nibble 0 + 16 * nibble 1 + 256 * nibble 2 + 4096 * nibble 3]

def add (a : Assembler) : Stmt → Assembler
  | .raw unit => a.emit unit
  | .label name =>
    let b := { a with labels := (name, a.pc) :: a.labels }
    if (a.labels.lookup name).isSome then b.fail (.duplicateLabel name) else b
  | .line number => { a with lines := a.lines ++ [⟨a.pc, number⟩] }
  | .tryRange start stop handlers => { a with tries := a.tries ++ [⟨start, stop, handlers⟩] }
  | .nop => a.emit 0x00
  | .move kind dst src => a.nibbleForm (0x01 + 3 * kind.index) dst src
  | .moveResult kind dst => a.byteForm (0x0a + kind.index) dst
  | .moveException dst => a.byteForm 0x0d dst
  | .returnVoid => a.emit 0x0e
  | .ret kind reg => a.byteForm (0x0f + kind.index) reg
  | .const dst value => a.const dst value
  | .constWide dst value => a.constWide dst value
  | .constString dst index => (a.byteForm 0x1a dst).emit index
  | .constClass dst index => (a.byteForm 0x1c dst).emit index
  | .monitorEnter reg => a.byteForm 0x1d reg
  | .monitorExit reg => a.byteForm 0x1e reg
  | .checkCast reg index => (a.byteForm 0x1f reg).emit index
  | .instanceOf dst src index => (a.nibbleForm 0x20 dst src).emit index
  | .arrayLength dst array => a.nibbleForm 0x21 dst array
  | .newInstance dst index => (a.byteForm 0x22 dst).emit index
  | .newArray dst size index => (a.nibbleForm 0x23 dst size).emit index
  | .throw reg => a.byteForm 0x27 reg
  | .goto8 label => (a.emit 0x28).jump a.pc a.pc label .byte
  | .goto16 label => (a.emitAll [0x29, 0]).jump a.pc (a.pc + 1) label .unit
  | .goto32 label => (a.emitAll [0x2a, 0, 0]).jump a.pc (a.pc + 1) label .word
  | .ifCmp cmp x y label =>
    ((a.nibbleForm (0x32 + cmp.index) x y).emit 0).jump a.pc (a.pc + 1) label .unit
  | .ifZero cmp reg label =>
    ((a.byteForm (0x38 + cmp.index) reg).emit 0).jump a.pc (a.pc + 1) label .unit
  | .packedSwitch reg first targets => a.switch 0x2b reg (.packed first) targets
  | .sparseSwitch reg cases => a.switch 0x2c reg (.sparse (cases.map (·.1))) (cases.map (·.2))
  | .compare variant dst x y => a.tripleForm (0x2d + min variant 4) dst x y
  | .arrayGet variant dst array index => a.tripleForm (0x44 + min variant 6) dst array index
  | .arrayPut variant src array index => a.tripleForm (0x4b + min variant 6) src array index
  | .instanceGet kind dst object index => (a.nibbleForm (0x52 + kind.index) dst object).emit index
  | .instancePut kind src object index => (a.nibbleForm (0x59 + kind.index) src object).emit index
  | .staticGet kind dst index => (a.byteForm (0x60 + kind.index) dst).emit index
  | .staticPut kind src index => (a.byteForm (0x67 + kind.index) src).emit index
  | .invoke kind index regs => a.invoke kind index regs
  | .invokeRange kind index first count =>
    a.emitAll [0x74 + kind.index + 256 * count, index, first]
  | .unary opcode dst src => a.nibbleForm opcode dst src
  | .binary op dst x y => a.tripleForm (0x90 + op.index) dst x y
  | .binaryTwo op dst src => a.nibbleForm (0xb0 + op.index) dst src
  | .binaryLiteral variant dst src value =>
    ((a.fit 8 src).byteForm (0xd8 + min variant 10) dst).emit
      (src % 256 + 256 * (value % 256).toNat)

def layOut (a : Assembler) (s : PendingSwitch) : Assembler :=
  let a := if a.pc % 2 = 0 then a else a.emit 0
  let distance := wordUnits ((a.pc : Int) - s.pc)
  let units := (a.units.setIfInBounds (s.pc + 1) (UInt16.ofNat (distance.headD 0))).setIfInBounds (s.pc + 2)
    (UInt16.ofNat (distance.getLastD 0))
  let a := { a with units := units }
  let a := match s.keys with
    | .packed first => a.emitAll ([Code.packedIdent, s.targets.length] ++ wordUnits first)
    | .sparse keys => a.emitAll ([Code.sparseIdent, s.targets.length] ++ keys.flatMap wordUnits)
  s.targets.foldl (fun a t => (a.emitAll [0, 0]).jump s.pc a.pc t .word) a

def resolve (a : Assembler) (label : String) : Except AsmFault Nat :=
  match a.labels.lookup label with
  | some place => .ok place
  | none => .error (.undefinedLabel label)

/-- Fills in a distance. A jump in a byte cannot go to itself. -/
def patch (a : Assembler) (units : Array UInt16) (f : Fixup) : Except AsmFault (Array UInt16) := do
  let target ← a.resolve f.label
  let distance : Int := target - f.pc
  let bits := f.reach.bits
  if distance < -(1 <<< (bits - 1) : Nat) ∨ (1 <<< (bits - 1) : Nat) ≤ distance ∨ (f.reach = .byte ∧ distance = 0) then
    throw (.outOfRange f.label f.pc bits)
  match f.reach with
  | .byte =>
    let u := (units[f.place]?).getD 0
    return units.setIfInBounds f.place (UInt16.ofNat (u.toNat % 256 + 256 * (distance % 256).toNat))
  | .unit => return units.setIfInBounds f.place (UInt16.ofNat (distance % 0x10000).toNat)
  | .word =>
    let words := wordUnits distance
    return (units.setIfInBounds f.place (UInt16.ofNat (words.headD 0))).setIfInBounds (f.place + 1)
      (UInt16.ofNat (words.getLastD 0))

end Assembler

structure Assembled where
  units : Array UInt16
  tries : List TryRange
  lines : List LineEntry

namespace Assembler

/-- Resolves the labels of a guarded range: those of its handlers, then its bounds. -/
def resolveTry (a : Assembler) (t : PendingTry) : Except AsmFault TryRange := do
  let handlers ← t.handlers.mapM fun (exception, label) => do
    return Handler.mk (exception.map Ty.ofClassName) (← a.resolve label)
  return ⟨← a.resolve t.start, ← a.resolve t.stop, handlers⟩

def finish (a : Assembler) : Except AsmFault Assembled := do
  if let some fault := a.fault then throw fault
  let a := a.switches.foldl layOut a
  let units ← a.fixups.foldlM a.patch a.units
  let tries ← a.tries.mapM a.resolveTry
  return ⟨units, tries, a.lines⟩

end Assembler

def assemble (program : List Stmt) : Except AsmFault Assembled := (program.foldl Assembler.add .empty).finish

def Assembled.bytes (a : Assembled) : List UInt8 :=
  a.units.toList.flatMap fun u => [u.toUInt8, (u / 256).toUInt8]

end JavaLift.Dalvik
