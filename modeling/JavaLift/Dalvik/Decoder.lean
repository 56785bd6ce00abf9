import JavaLift.Body
import JavaLift.Dalvik.Code
import JavaLift.Dalvik.Opcode
import JavaLift.Insn.Printer

namespace JavaLift.Dalvik

inductive Item where
  | insn (i : Insn)
  | moveResult (reg : Nat) (wide : Bool)
  | payload

/-- An item and the number of units that follow its first one. -/
structure Decoded where
  item : Item
  tail : Nat

def wideRegister (reg : Nat) (wide : Bool) : Register :=
  if wide then .typed reg (.narrow .wide) else .plain reg

def constant (pc reg : Nat) (value : Int) (wide : Bool) : Insn :=
  let type := Ty.narrow (.ofLiteral value wide)
  .of .const [.lit value type] (some (.typed reg type)) pc

/-- An operation on two arguments of its own type; a shift has an int as its second one. -/
def binary (pc : Nat) (op : ArithOp) (type : Ty) (dst lhs rhs : Nat) : Insn :=
  .of (.arith op type) [.ofTyped lhs type, .ofTyped rhs (if op.isShift then .int else type)]
    (some (.typed dst type)) pc

/-- An operation on a register and a literal. A difference takes the register from the literal. -/
def binaryLiteral (pc : Nat) (op : ArithOp) (dst src : Nat) (value : Int) : Insn :=
  let literal := Arg.lit value .int
  let reg := Arg.ofTyped src .int
  .of (.arith op .int) (if op = .sub then [literal, reg] else [reg, literal]) (some (.typed dst .int)) pc

def unaryTypes : Op → Ty × Ty
  | .neg t | .not t => (t, t)
  | .cast source target => (source, target)
  | _ => (.unknown, .unknown)

def unary (pc index dst src : Nat) : Insn :=
  let op := (unaryOps[index]?).getD .nop
  let (source, target) := unaryTypes op
  .of op [.ofTyped src source] (some (.typed dst target)) pc

def reference {α : Type} (kind : RefKind) (found : Option α) (index pc : Nat) : Except DecodeFault α :=
  match found with
  | some a => .ok a
  | none => .error (.badReference kind index pc)

/-- The registers of a call: those from a first one on, or up to five half bytes. -/
def invokeRegisters (code : Code) (pc : Nat) (range : Bool) : Except DecodeFault (List Nat) := do
  let u0 ← code.unit pc pc
  let u2 ← code.unit pc (pc + 2)
  if range then return (List.range (u0 / 256)).map fun i => (u2 + i) % 65536
  let count := u0 / 4096
  if 5 < count then throw (.malformed pc (.invokeRegisters count))
  return [u2 % 16, u2 / 16 % 16, u2 / 256 % 16, u2 / 4096, u0 / 256 % 16].take count

/-- The arguments at the start of the registers, each of the width of its type. -/
def argumentsOf : List Ty → List Nat → List Arg
  | t :: ts, r :: rs => .ofTyped r t :: argumentsOf ts ((r :: rs).drop t.width)
  | _, _ => []

def invokeArguments (pc : Nat) (regs : List Nat) (m : MethodRef) (isStatic : Bool) :
    Except DecodeFault (List Arg) :=
  let expected := m.argumentRegisters isStatic
  if regs.length ≠ expected then .error (.operandMismatch pc expected regs.length)
  else .ok (argumentsOf (if isStatic then m.params else .ofClassName m.className :: m.params) regs)

/-- The item of an opcode, given the high byte of its unit: a register `aa`, or two in its halves. -/
def decodeOpcode (code : Code) (pool : Pool) (pc aa : Nat) (opcode : Opcode) : Except DecodeFault Decoded := do
  let a4 := aa % 16
  let b4 := aa / 16
  let unit (i : Nat) := code.unit pc (pc + i)
  let word (i : Nat) := code.word pc (pc + i)
  let insn (tail : Nat) (op : Op) (args : List Arg) (result : Option Register) : Except DecodeFault Decoded :=
    .ok ⟨.insn (.of op args result pc), tail⟩
  let typeAt (i : Nat) : Except DecodeFault Ty := do
    let index ← unit i
    reference .type (pool.type? index) index pc
  let fieldAt (i : Nat) : Except DecodeFault FieldRef := do
    let index ← unit i
    reference .field (pool.field? index) index pc
  match opcode with
  | .nop =>
    if aa = 0 then insn 0 .nop [] none
    else if aa ≤ 3 then return ⟨.payload, (← code.payloadSize pc) - 1⟩
    else throw (.unknownOpcode (256 * aa) pc)
  | .move kind width =>
    let wide := kind == .wide
    let (dst, src) ← match width with
      | .nibbles => pure (a4, b4)
      | .byteUnit => pure (aa, ← unit 1)
      | .units => pure (← unit 1, ← unit 2)
    insn width.index .move [.reg (wideRegister src wide)] (some (wideRegister dst wide))
  | .moveResult kind => return ⟨.moveResult aa (kind == .wide), 0⟩
  | .moveException => insn 0 (.moveException none) [] (some (.plain aa))
  | .returnVoid => insn 0 .ret [] none
  | .ret kind => insn 0 .ret [.reg (wideRegister aa (kind == .wide))] none
  | .const4 => return ⟨.insn (constant pc a4 (signed 4 b4) false), 0⟩
  | .const16 => return ⟨.insn (constant pc aa (signed 16 (← unit 1)) false), 1⟩
  | .const32 => return ⟨.insn (constant pc aa (signed 32 (← word 1)) false), 2⟩
  | .constHigh16 => return ⟨.insn (constant pc aa (signed 32 (65536 * (← unit 1))) false), 1⟩
  | .constWide16 => return ⟨.insn (constant pc aa (signed 16 (← unit 1)) true), 1⟩
  | .constWide32 => return ⟨.insn (constant pc aa (signed 32 (← word 1)) true), 2⟩
  | .constWide64 =>
    let lo ← word 1
    let hi ← word 3
    return ⟨.insn (constant pc aa (signed 64 (lo + 0x100000000 * hi)) true), 4⟩
  | .constWideHigh16 => return ⟨.insn (constant pc aa (signed 64 (0x1000000000000 * (← unit 1))) true), 1⟩
  | .constString =>
    let index ← unit 1
    let s ← reference .string (pool.string? index) index pc
    insn 1 (.constString s) [] (some (.typed aa (.object Ty.stringClass)))
  | .constStringJumbo =>
    let index ← word 1
    let s ← reference .string (pool.string? index) index pc
    insn 2 (.constString s) [] (some (.typed aa (.object Ty.stringClass)))
  | .constClass => insn 1 (.constClass (← typeAt 1)) [] (some (.plain aa))
  | .monitorEnter => insn 0 .monitorEnter [.ofReg aa] none
  | .monitorExit => insn 0 .monitorExit [.ofReg aa] none
  | .checkCast =>
    let t ← typeAt 1
    insn 1 (.checkCast t) [.ofReg aa] (some (.typed aa t))
  | .instanceOf => insn 1 (.instanceOf (← typeAt 1)) [.ofReg b4] (some (.typed a4 .boolean))
  | .arrayLength => insn 0 .arrayLength [.ofReg b4] (some (.typed a4 .int))
  | .newInstance =>
    let t ← typeAt 1
    insn 1 (.newInstance t) [] (some (.typed aa t))
  | .newArray =>
    let t ← typeAt 1
    insn 1 (.newArray t) [.ofTyped b4 .int] (some (.typed a4 t))
  | .filledNewArray range =>
    let t ← typeAt 1
    let regs ← invokeRegisters code pc range
    insn 2 (.filledNewArray t) (regs.map (.ofTyped · (t.element?.getD .unknown))) none
  | .fillArrayData =>
    let (width, data) ← code.readArray pc (signed 32 (← word 1))
    insn 2 (.fillArray width data) [.ofReg aa] none
  | .throw => insn 0 .throw [.ofReg aa] none
  | .goto8 => insn 0 (.goto (← jumpTarget pc (signed 8 aa))) [] none
  | .goto16 => insn 1 (.goto (← jumpTarget pc (signed 16 (← unit 1)))) [] none
  | .goto32 => insn 2 (.goto (← jumpTarget pc (signed 32 (← word 1)))) [] none
  | .packedSwitch | .sparseSwitch =>
    let cases ← code.readSwitch pc (signed 32 (← word 1))
    insn 2 (.switchOn (cases.map (·.1)) (cases.map (·.2)) none) [.ofTyped aa .int] none
  | .compare kind =>
    let u ← unit 1
    insn 1 (.compare kind.type) [.ofTyped (u % 256) kind.type, .ofTyped (u / 256) kind.type]
      (some (.typed aa .int))
  | .ifCmp cmp => insn 1 (.jumpIf cmp (← jumpTarget pc (signed 16 (← unit 1)))) [.ofReg a4, .ofReg b4] none
  | .ifZero cmp => insn 1 (.jumpIf cmp (← jumpTarget pc (signed 16 (← unit 1)))) [.ofReg aa] none
  | .arrayGet kind =>
    let u ← unit 1
    insn 1 (.arrayGet kind.type) [.ofReg (u % 256), .ofTyped (u / 256) .int] (some (.typed aa kind.type))
  | .arrayPut kind =>
    let u ← unit 1
    insn 1 (.arrayPut kind.type) [.ofReg (u % 256), .ofTyped (u / 256) .int, .ofTyped aa kind.type] none
  | .instanceGet _ =>
    let f ← fieldAt 1
    insn 1 (.instanceGet f) [.ofTyped b4 (.ofClassName f.className)] (some (.typed a4 f.type))
  | .instancePut _ =>
    let f ← fieldAt 1
    insn 1 (.instancePut f) [.ofTyped b4 (.ofClassName f.className), .ofTyped a4 f.type] none
  | .staticGet _ =>
    let f ← fieldAt 1
    insn 1 (.staticGet f) [] (some (.typed aa f.type))
  | .staticPut _ =>
    let f ← fieldAt 1
    insn 1 (.staticPut f) [.ofTyped aa f.type] none
  | .invoke kind range =>
    let index ← unit 1
    let m ← reference .method (pool.method? index) index pc
    let regs ← invokeRegisters code pc range
    insn 2 (.invoke kind m) (← invokeArguments pc regs m kind.isStatic) none
  | .unary i => return ⟨.insn (unary pc i a4 b4), 0⟩
  | .binary op type =>
    let u ← unit 1
    return ⟨.insn (binary pc op type.type aa (u % 256) (u / 256)), 1⟩
  | .binaryTwo op type => return ⟨.insn (binary pc op type.type a4 a4 b4), 0⟩
  | .binaryLiteral op true => return ⟨.insn (binaryLiteral pc op a4 b4 (signed 16 (← unit 1))), 1⟩
  | .binaryLiteral op false =>
    let u ← unit 1
    return ⟨.insn (binaryLiteral pc op aa (u % 256) (signed 8 (u / 256))), 1⟩

def decodeAt (code : Code) (pool : Pool) (pc : Nat) : Except DecodeFault Decoded := do
  let u0 ← code.unit pc pc
  match Opcode.ofByte? (u0 % 256) with
  | some opcode => decodeOpcode code pool pc (u0 / 256) opcode
  | none => throw (.unknownOpcode (u0 % 256) pc)

def resultType? (i : Insn) : Option Ty :=
  if i.result.isSome then none
  else match i.op with
    | .invoke _ m => some m.ret
    | .filledNewArray t => some t
    | _ => none

/-- Adds an item to the instructions before it, last one first. -/
def addItem (done : List Insn) (pc : Nat) : Item → Except DecodeFault (List Insn)
  | .insn i => .ok (i :: done)
  | .payload => .ok done
  | .moveResult reg wide =>
    match done with
    | [] => .error (.malformed pc .loneMoveResult)
    | call :: before => match resultType? call with
      | none => .error (.malformed pc .loneMoveResult)
      | some type =>
        let result := { Register.typed reg type with wide := type.isWide || wide }
        .ok ({ call with result := some result } :: before)

def decodeFrom (code : Code) (pool : Pool) (done : List Insn) (pc : Nat) : Except DecodeFault (List Insn) :=
  if pc < code.size then
    match decodeAt code pool pc with
    | .error e => .error e
    | .ok d => match addItem done pc d.item with
      | .error e => .error e
      | .ok done => decodeFrom code pool done (pc + 1 + d.tail)
  else .ok done.reverse
termination_by code.size - pc

def decodeAll (code : Code) (pool : Pool) : Except DecodeFault (List Insn) := decodeFrom code pool [] 0

def Item.render : Item → String
  | .insn i => i.render
  | .moveResult reg _ => "move-result r" ++ toString reg
  | .payload => ".payload"

/-- The lines of a listing from a position on. A unit that cannot be read stands for itself. -/
def listFrom (code : Code) (pool : Pool) (pc : Nat) : List (Nat × String) :=
  if h : pc < code.size then
    match decodeAt code pool pc with
    | .ok d => (pc, d.item.render) :: listFrom code pool (pc + 1 + d.tail)
    | .error _ => (pc, ".word " ++ Text.offset code[pc].toNat) :: listFrom code pool (pc + 1)
  else []
termination_by code.size - pc

def listing (code : Code) (pool : Pool) : List String :=
  (listFrom code pool 0).map fun (pc, line) => Text.offset pc ++ ": " ++ line

end JavaLift.Dalvik
