import JavaLift.Insn.Op
import JavaLift.Text.Quoted
import JavaLift.Word

namespace JavaLift.ClassFile

abbrev Code := Array UInt8

inductive Operand where
  | none
  | local (index : Nat)
  | increment (index : Nat) (delta : Int)
  | int (value : Int)
  | pool (index : Nat)
  | branch (target : Nat)
  | switch (cases : List (Int × Nat)) (default : Nat)
  | arrayType (code : Nat)

def Operand.render : Operand → String
  | .none => "None"
  | .local index => "Local(" ++ toString index ++ ")"
  | .increment index delta => "Iinc \x7b local: " ++ toString index ++ ", delta: " ++ toString delta ++ " \x7d"
  | .int value => "Int(" ++ toString value ++ ")"
  | .pool index => "Pool(" ++ toString index ++ ")"
  | .branch target => "Branch(" ++ toString target ++ ")"
  | .switch cases default =>
    "Switch \x7b keys: " ++ Text.bracketed (cases.map fun c => toString c.1) ++ ", targets: "
      ++ Text.bracketed (cases.map fun c => toString c.2) ++ ", default: " ++ toString default ++ " \x7d"
  | .arrayType code => "ArrayType(" ++ toString code ++ ")"

/-- An opcode at an offset, with its operand and the number of bytes that follow the opcode. -/
structure RawOp where
  offset : Nat
  opcode : Nat
  operand : Operand
  tail : Nat

namespace Code

def byte (code : Code) (pc i : Nat) : Except DecodeFault Nat :=
  match code[i]? with
  | some b => .ok b.toNat
  | none => .error (.truncated pc)

/-- Two bytes from number `i` on, the high one first. -/
def short (code : Code) (pc i : Nat) : Except DecodeFault Nat := do
  let hi ← code.byte pc i
  let lo ← code.byte pc (i + 1)
  return 256 * hi + lo

def word (code : Code) (pc i : Nat) : Except DecodeFault Int := do
  let hi ← code.short pc i
  let lo ← code.short pc (i + 2)
  return signed 32 (65536 * hi + lo)

def tableCases (code : Code) (pc : Nat) : Nat → Int → Nat → Except DecodeFault (List (Int × Nat))
  | 0, _, _ => .ok []
  | count + 1, key, i => do
    let t ← jumpTarget pc (← code.word pc i)
    let rest ← code.tableCases pc count (key + 1) (i + 4)
    return (key, t) :: rest

def lookupCases (code : Code) (pc : Nat) : Nat → Nat → Except DecodeFault (List (Int × Nat))
  | 0, _ => .ok []
  | count + 1, i => do
    let key ← code.word pc i
    let t ← jumpTarget pc (← code.word pc (i + 4))
    let rest ← code.lookupCases pc count (i + 8)
    return (key, t) :: rest

/-- The table of a switch, which starts at the next offset that four divides, and the bytes up to its end. -/
def readSwitch (code : Code) (pc opcode : Nat) : Except DecodeFault (Operand × Nat) := do
  let p := (pc + 4) / 4 * 4
  let default ← jumpTarget pc (← code.word pc p)
  if opcode = 0xaa then
    let low ← code.word pc (p + 4)
    let high ← code.word pc (p + 8)
    if high < low then throw (.badPayload pc (.tableRange low high))
    let count := (high - low + 1).toNat
    let cases ← code.tableCases pc count low (p + 12)
    return (.switch cases default, p + 12 + 4 * count - (pc + 1))
  else
    let count ← code.word pc (p + 4)
    if count < 0 then throw (.badPayload pc (.pairCount count))
    let cases ← code.lookupCases pc count.toNat (p + 8)
    return (.switch cases default, p + 8 + 8 * count.toNat - (pc + 1))

def readWide (code : Code) (pc : Nat) : Except DecodeFault RawOp := do
  let opcode ← code.byte pc (pc + 1)
  let index ← code.short pc (pc + 2)
  if (0x15 ≤ opcode ∧ opcode ≤ 0x19) ∨ (0x36 ≤ opcode ∧ opcode ≤ 0x3a) then
    return ⟨pc, opcode, .local index, 3⟩
  else if opcode = 0x84 then
    return ⟨pc, opcode, .increment index (signed 16 (← code.short pc (pc + 4))), 5⟩
  else throw (.unknownOpcode (0xc400 + opcode) pc)

def readOp (code : Code) (pc : Nat) : Except DecodeFault RawOp := do
  let opcode ← code.byte pc pc
  let within (lo hi : Nat) : Bool := lo ≤ opcode && opcode ≤ hi
  let op (operand : Operand) (tail : Nat) : Except DecodeFault RawOp := .ok ⟨pc, opcode, operand, tail⟩
  if opcode = 0x10 then op (.int (signed 8 (← code.byte pc (pc + 1)))) 1
  else if opcode = 0x11 then op (.int (signed 16 (← code.short pc (pc + 1)))) 2
  else if opcode = 0x12 then op (.pool (← code.byte pc (pc + 1))) 1
  else if within 0x13 0x14 then op (.pool (← code.short pc (pc + 1))) 2
  else if within 0x15 0x19 || within 0x36 0x3a then op (.local (← code.byte pc (pc + 1))) 1
  else if opcode = 0x84 then
    let index ← code.byte pc (pc + 1)
    op (.increment index (signed 8 (← code.byte pc (pc + 2)))) 2
  else if within 0x99 0xa7 || within 0xc6 0xc7 then
    op (.branch (← jumpTarget pc (signed 16 (← code.short pc (pc + 1))))) 2
  else if opcode = 0xc8 then op (.branch (← jumpTarget pc (← code.word pc (pc + 1)))) 4
  else if within 0xaa 0xab then
    let (operand, tail) ← code.readSwitch pc opcode
    op operand tail
  else if within 0xb2 0xb8 || opcode = 0xbb || opcode = 0xbd || within 0xc0 0xc1 then
    op (.pool (← code.short pc (pc + 1))) 2
  else if opcode = 0xb9 then op (.pool (← code.short pc (pc + 1))) 4
  else if opcode = 0xbc then op (.arrayType (← code.byte pc (pc + 1))) 1
  else if opcode = 0xc4 then code.readWide pc
  else if within 0x00 0x0f || within 0x1a 0x35 || within 0x3b 0x83 || within 0x85 0x98 || within 0xac 0xb1
      || within 0xbe 0xbf || within 0xc2 0xc3 then op .none 0
  else throw (.unknownOpcode opcode pc)

def readFrom (code : Code) (pc : Nat) : Except DecodeFault (List RawOp) :=
  if pc < code.size then
    match code.readOp pc with
    | .error e => .error e
    | .ok op => match code.readFrom (pc + 1 + op.tail) with
      | .error e => .error e
      | .ok rest => .ok (op :: rest)
  else .ok []
termination_by code.size - pc

def byteLines (pc : Nat) : List UInt8 → List String
  | [] => []
  | b :: rest =>
    (Text.offset pc ++ ": .bytes " ++ " ".intercalate (((b :: rest).take 16).map fun b => Text.hex 2 b.toNat))
      :: byteLines (pc + 16) (rest.drop 15)
termination_by bytes => bytes.length
decreasing_by
  simp only [List.length_drop, List.length_cons]
  omega

/-- The lines of a listing from an offset on. From the first fault on only bytes are listed. -/
def listFrom (code : Code) (pc : Nat) : List String :=
  if pc < code.size then
    match code.readOp pc with
    | .ok op =>
      (Text.offset pc ++ ": opcode 0x" ++ Text.hex 2 op.opcode ++ " " ++ op.operand.render)
        :: code.listFrom (pc + 1 + op.tail)
    | .error _ => byteLines pc (code.toList.drop pc)
  else []
termination_by code.size - pc

def listing (code : Code) : List String := code.listFrom 0

end Code

/-- The five sorts of values of loads, stores and returns. An int may be any of the small integers. -/
def valueTypes : List Ty := [.narrow .narrowIntegral, .long, .float, .double, .unknown]

def numberTypes : List Ty := [.int, .long, .float, .double]

/-- The element types of array instructions. A byte array may be one of truth values. -/
def elementTypes : List Ty :=
  [.int, .long, .float, .double, .unknown, .narrow (.ofList [.boolean, .byte]), .char, .short]

def primitiveType? : Nat → Option Ty
  | 4 => some .boolean
  | 5 => some .char
  | 6 => some .float
  | 7 => some .double
  | 8 => some .byte
  | 9 => some .short
  | 10 => some .int
  | 11 => some .long
  | _ => none

def conversions : List (Ty × Ty) := [
  (.int, .long), (.int, .float), (.int, .double), (.long, .int), (.long, .float), (.long, .double),
  (.float, .int), (.float, .long), (.float, .double), (.double, .int), (.double, .long), (.double, .float),
  (.int, .byte), (.int, .char), (.int, .short)]

inductive Shuffle where
  | dup | dupX1 | dupX2 | dup2 | dup2X1 | dup2X2 | swap
deriving DecidableEq

def shuffles : List Shuffle := [.dup, .dupX1, .dupX2, .dup2, .dup2X1, .dup2X2, .swap]

/-- How an instruction finds its method; `special` is for constructors, own and super class methods. -/
inductive CallKind where
  | virtual | special | static | interface
deriving DecidableEq

inductive Action where
  | nop
  | pushNull
  | pushInt (value : Int)
  | pushLong (value : Int)
  | pushFloat (bits : Nat)
  | pushDouble (bits : Nat)
  | loadConstant (index : Nat)
  | load (type : Ty) (index : Nat)
  | store (type : Ty) (index : Nat)
  | arrayLoad (type : Ty)
  | arrayStore (type : Ty)
  | pop
  | popTwo
  | shuffle (kind : Shuffle)
  | arith (op : ArithOp) (type : Ty)
  | neg (type : Ty)
  | increment (index : Nat) (delta : Int)
  | convert (source target : Ty)
  | compare (type : Ty)
  | ifZero (cmp : CmpOp) (target : Nat)
  | ifPair (cmp : CmpOp) (target : Nat)
  | jump (target : Nat)
  | switch (cases : List (Int × Nat)) (default : Nat)
  | returnValue (type : Ty)
  | returnVoid
  | getStatic (index : Nat)
  | putStatic (index : Nat)
  | getField (index : Nat)
  | putField (index : Nat)
  | call (kind : CallKind) (index : Nat)
  | newObject (index : Nat)
  | newPrimitives (code : Nat)
  | newArray (index : Nat)
  | arrayLength
  | throw
  | checkCast (index : Nat)
  | instanceOf (index : Nat)
  | monitorEnter
  | monitorExit

def plainAction? (opcode : Nat) : Option Action :=
  let within (lo hi : Nat) : Bool := lo ≤ opcode && opcode ≤ hi
  if opcode = 0x00 then some .nop
  else if opcode = 0x01 then some .pushNull
  else if within 0x02 0x08 then some (.pushInt ((opcode : Int) - 3))
  else if within 0x09 0x0a then some (.pushLong ((opcode : Int) - 9))
  else if within 0x0b 0x0d then ([0, 0x3f800000, 0x40000000][opcode - 0x0b]?).map .pushFloat
  else if within 0x0e 0x0f then ([0, 0x3ff0000000000000][opcode - 0x0e]?).map .pushDouble
  else if within 0x1a 0x2d then (valueTypes[(opcode - 0x1a) / 4]?).map (.load · ((opcode - 0x1a) % 4))
  else if within 0x2e 0x35 then (elementTypes[opcode - 0x2e]?).map .arrayLoad
  else if within 0x3b 0x4e then (valueTypes[(opcode - 0x3b) / 4]?).map (.store · ((opcode - 0x3b) % 4))
  else if within 0x4f 0x56 then (elementTypes[opcode - 0x4f]?).map .arrayStore
  else if opcode = 0x57 then some .pop
  else if opcode = 0x58 then some .popTwo
  else if within 0x59 0x5f then (shuffles[opcode - 0x59]?).map .shuffle
  else if within 0x60 0x73 then do
    return .arith (← ArithOp.ofIndex? ((opcode - 0x60) / 4)) (← numberTypes[(opcode - 0x60) % 4]?)
  else if within 0x74 0x77 then (numberTypes[opcode - 0x74]?).map .neg
  else if within 0x78 0x83 then do
    return .arith (← [ArithOp.shl, .shr, .ushr, .and, .or, .xor][(opcode - 0x78) / 2]?)
      (← numberTypes[(opcode - 0x78) % 2]?)
  else if within 0x85 0x93 then (conversions[opcode - 0x85]?).map fun (source, target) => .convert source target
  else if within 0x94 0x98 then ([Ty.long, .float, .float, .double, .double][opcode - 0x94]?).map .compare
  else if within 0xac 0xb0 then (valueTypes[opcode - 0xac]?).map .returnValue
  else if opcode = 0xb1 then some .returnVoid
  else if opcode = 0xbe then some .arrayLength
  else if opcode = 0xbf then some .throw
  else if opcode = 0xc2 then some .monitorEnter
  else if opcode = 0xc3 then some .monitorExit
  else none

def poolAction? (opcode index : Nat) : Option Action :=
  if 0x12 ≤ opcode ∧ opcode ≤ 0x14 then some (.loadConstant index)
  else match opcode with
    | 0xb2 => some (.getStatic index)
    | 0xb3 => some (.putStatic index)
    | 0xb4 => some (.getField index)
    | 0xb5 => some (.putField index)
    | 0xb6 => some (.call .virtual index)
    | 0xb7 => some (.call .special index)
    | 0xb8 => some (.call .static index)
    | 0xb9 => some (.call .interface index)
    | 0xbb => some (.newObject index)
    | 0xbd => some (.newArray index)
    | 0xc0 => some (.checkCast index)
    | 0xc1 => some (.instanceOf index)
    | _ => none

def branchAction? (opcode target : Nat) : Option Action :=
  if 0x99 ≤ opcode ∧ opcode ≤ 0x9e then (CmpOp.ofIndex? (opcode - 0x99)).map (.ifZero · target)
  else if 0x9f ≤ opcode ∧ opcode ≤ 0xa4 then (CmpOp.ofIndex? (opcode - 0x9f)).map (.ifPair · target)
  else match opcode with
    | 0xa5 => some (.ifPair .eq target)
    | 0xa6 => some (.ifPair .ne target)
    | 0xa7 | 0xc8 => some (.jump target)
    | 0xc6 => some (.ifZero .eq target)
    | 0xc7 => some (.ifZero .ne target)
    | _ => none

def RawOp.action? (op : RawOp) : Option Action :=
  match op.operand with
  | .none => plainAction? op.opcode
  | .local index =>
    if op.opcode < 0x36 then (valueTypes[op.opcode - 0x15]?).map (.load · index)
    else (valueTypes[op.opcode - 0x36]?).map (.store · index)
  | .increment index delta => some (.increment index delta)
  | .int value => some (.pushInt value)
  | .pool index => poolAction? op.opcode index
  | .branch target => branchAction? op.opcode target
  | .switch cases default => some (.switch cases default)
  | .arrayType code => some (.newPrimitives code)

end JavaLift.ClassFile
