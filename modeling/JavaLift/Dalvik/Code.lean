import JavaLift.Word

namespace JavaLift.Dalvik

abbrev Code := Array UInt16

/-- The units of pairs of bytes, the low byte first. -/
def unitsOf : List UInt8 → List UInt16
  | lo :: hi :: rest => (lo.toUInt16 + 256 * hi.toUInt16) :: unitsOf rest
  | _ => []

def Code.ofBytes (bytes : Array UInt8) : Except DecodeFault Code :=
  if bytes.size % 2 ≠ 0 then .error (.truncated (bytes.size / 2)) else .ok (unitsOf bytes.toList).toArray

namespace Code

def unit (code : Code) (pc i : Nat) : Except DecodeFault Nat :=
  match code[i]? with
  | some u => .ok u.toNat
  | none => .error (.truncated pc)

/-- The two units from number `i` on as one number, the low one first. -/
def word (code : Code) (pc i : Nat) : Except DecodeFault Nat := do
  let lo ← code.unit pc i
  let hi ← code.unit pc (i + 1)
  return lo + 65536 * hi

def packedIdent : Nat := 0x0100
def sparseIdent : Nat := 0x0200
def arrayIdent : Nat := 0x0300

def payloadSize (code : Code) (pc : Nat) : Except DecodeFault Nat := do
  let ident ← code.unit pc pc
  let size ← code.unit pc (pc + 1)
  let length ←
    if ident = packedIdent then pure (size * 2 + 4)
    else if ident = sparseIdent then pure (size * 4 + 2)
    else if ident = arrayIdent then do
      let count ← code.word pc (pc + 2)
      pure ((count * size + 1) / 2 + 4)
    else throw (.badPayload pc (.unknownIdent ident))
  if code.size < pc + length then throw (.truncated pc)
  return length

def payloadStart (code : Code) (pc : Nat) (distance : Int) : Except DecodeFault Nat :=
  let p := pc + distance
  if 0 ≤ p ∧ p < code.size then .ok p.toNat else .error (.badPayload pc (.outOfRange distance))

/-- A read in a table: what is missing there is a defect of the table. -/
def inPayload {α : Type} (pc : Nat) (defect : PayloadDefect) (read : Except DecodeFault α) : Except DecodeFault α :=
  read.mapError fun _ => .badPayload pc defect

def switchCase (code : Code) (pc place : Nat) (key : Int) : Except DecodeFault (Int × Nat) := do
  let distance ← inPayload pc .truncatedSwitch (code.word pc place)
  return (key, ← jumpTarget pc (signed 32 distance))

def readSwitch (code : Code) (pc : Nat) (distance : Int) : Except DecodeFault (List (Int × Nat)) := do
  let p ← code.payloadStart pc distance
  let ident ← inPayload pc .truncatedSwitch (code.unit pc p)
  let size ← inPayload pc .truncatedSwitch (code.unit pc (p + 1))
  if ident = packedIdent then
    let first ← inPayload pc .truncatedSwitch (code.word pc (p + 2))
    (List.range size).mapM fun i => code.switchCase pc (p + 4 + 2 * i) (signed 32 (first + i))
  else if ident = sparseIdent then
    (List.range size).mapM fun i => do
      let key ← inPayload pc .truncatedSwitch (code.word pc (p + 2 + 2 * i))
      code.switchCase pc (p + 2 + 2 * size + 2 * i) (signed 32 key)
  else throw (.badPayload pc .noSwitch)

def dataByte (code : Code) (pc start i : Nat) : Except DecodeFault Nat := do
  let u ← inPayload pc .truncatedArray (code.unit pc (start + i / 2))
  return if i % 2 = 0 then u % 256 else u / 256

def dataNumber (code : Code) (pc start : Nat) : Nat → Nat → Except DecodeFault Nat
  | 0, _ => .ok 0
  | width + 1, i => do
    let b ← code.dataByte pc start i
    let rest ← code.dataNumber pc start width (i + 1)
    return b + 256 * rest

def dataElements (code : Code) (pc start width : Nat) : Nat → Nat → Except DecodeFault (List Int)
  | 0, _ => .ok []
  | count + 1, e => do
    let n ← code.dataNumber pc start width (e * width)
    let rest ← code.dataElements pc start width count (e + 1)
    return signed (8 * width) n :: rest

def readArray (code : Code) (pc : Nat) (distance : Int) : Except DecodeFault (Nat × List Int) := do
  let p ← code.payloadStart pc distance
  let ident ← inPayload pc .truncatedArray (code.unit pc p)
  if ident ≠ arrayIdent then throw (.badPayload pc .noArray)
  let width ← inPayload pc .truncatedArray (code.unit pc (p + 1))
  if width ∉ [1, 2, 4, 8] then throw (.badPayload pc .elementWidth)
  let count ← inPayload pc .truncatedArray (code.word pc (p + 2))
  return (width, ← code.dataElements pc (p + 4) width count 0)

end Code

end JavaLift.Dalvik
