import JavaLift.Dump.Basic
import JavaLift.Text.Quoted

namespace JavaLift

/-- A text in a dump that is refused. A descriptor cut inside a character ends the whole run. -/
inductive EntryFault where
  | typeDescriptor (text : String) (why : DescriptorFault)
  | methodDescriptor (text name : String) (why : DescriptorFault)

inductive PoolFault where
  | inTypes (index : Nat) (fault : EntryFault)
  | inFields (index : Nat) (fault : EntryFault)
  | inMethods (index : Nat) (fault : EntryFault)
  | inEntries (fault : EntryFault)

inductive CodeFault where
  | oddDigits (count : Nat)
  | badDigit (byte : UInt8)
  | oddLength (count : Nat)
  | exception (fault : EntryFault)

inductive DumpFault where
  | pool (className : String) (fault : PoolFault)
  | descriptor (text className methodName : String) (why : DescriptorFault)
  | code (className methodName : String) (fault : CodeFault)

def EntryFault.message : EntryFault → String
  | .typeDescriptor text _ => "invalid type descriptor " ++ Text.quoted text
  | .methodDescriptor text name _ => "invalid method descriptor " ++ Text.quoted text ++ " for " ++ name

def EntryFault.why : EntryFault → DescriptorFault
  | .typeDescriptor _ why | .methodDescriptor _ _ why => why

def PoolFault.message : PoolFault → String
  | .inTypes i fault => "type #" ++ toString i ++ ": " ++ fault.message
  | .inFields i fault => "field #" ++ toString i ++ ": " ++ fault.message
  | .inMethods i fault => "method #" ++ toString i ++ ": " ++ fault.message
  | .inEntries fault => fault.message

def PoolFault.entry : PoolFault → EntryFault
  | .inTypes _ fault | .inFields _ fault | .inMethods _ fault | .inEntries fault => fault

def CodeFault.message : CodeFault → String
  | .oddDigits n => "odd number of hex digits (" ++ toString n ++ ")"
  | .badDigit b => "invalid hex digit " ++ Text.quotedChar (Char.ofNat b.toNat)
  | .oddLength n => "Dalvik code has odd byte length " ++ toString n
  | .exception fault => fault.message

namespace DumpFault

def headline : DumpFault → String
  | .pool className _ => "Bad constant pool in " ++ className
  | .descriptor text className methodName _ =>
    "invalid descriptor " ++ Text.quoted text ++ " for " ++ className ++ "." ++ methodName
  | .code className methodName _ => "Bad code in " ++ className ++ "." ++ methodName

def message (f : DumpFault) : String :=
  match f with
  | .pool _ fault => f.headline ++ ": " ++ fault.message
  | .descriptor .. => f.headline
  | .code _ _ fault => f.headline ++ ": " ++ fault.message

def isFatal : DumpFault → Bool
  | .pool _ fault => fault.entry.why == .splitCharacter
  | .descriptor _ _ _ why => why == .splitCharacter
  | .code _ _ (.exception fault) => fault.why == .splitCharacter
  | .code .. => false

end DumpFault

def readType (text : String) : Except EntryFault Ty := (Ty.ofDescriptor text).mapError (.typeDescriptor text)

def readClass (name : String) : Except EntryFault Ty :=
  if name.toList.head? = some '[' then readType name else .ok (.ofClassName name)

namespace MemberDump

def toField (m : MemberDump) : Except EntryFault FieldRef := do
  return ⟨Ty.dotted m.className, m.name, ← readType m.descriptor⟩

def toMethod (m : MemberDump) : Except EntryFault MethodRef :=
  (MethodRef.ofDescriptor m.className m.name m.descriptor).mapError (.methodDescriptor m.descriptor m.name)

end MemberDump

def EntryValue.toEntry : EntryValue → Except EntryFault PoolEntry
  | .cls name => (readClass name).map fun t => .constant (.cls t)
  | .string s => .ok (.constant (.string s))
  | .int i => .ok (.constant (.int i))
  | .float bits => .ok (.constant (.float bits))
  | .long i => .ok (.constant (.long i))
  | .double bits => .ok (.constant (.double bits))
  | .field m => m.toField.map .field
  | .method m => m.toMethod.map .method

namespace PoolDump

def readTable {α β : Type} (items : List α) (read : α → Except EntryFault β) (place : Nat → EntryFault → PoolFault) :
    Except PoolFault (List β) :=
  items.zipIdx.mapM fun (a, i) => (read a).mapError (place i)

/-- The pool of the given format; the parts for the other one are not looked at. -/
def toPool (p : PoolDump) : Format → Except PoolFault Pool
  | .dalvik => do
    let types ← readTable p.types readType .inTypes
    let fields ← readTable p.fields MemberDump.toField .inFields
    let methods ← readTable p.methods MemberDump.toMethod .inMethods
    return .tables ⟨p.strings.toArray, types.toArray, fields.toArray, methods.toArray⟩
  | .classFile => do
    let entries ← p.entries.mapM fun (i, v) => do return (i, ← v.toEntry.mapError .inEntries)
    return .numbered entries

end PoolDump

def hexValue (b : UInt8) : Except CodeFault UInt8 :=
  if '0'.toUInt8 ≤ b && b ≤ '9'.toUInt8 then .ok (b - '0'.toUInt8)
  else if 'a'.toUInt8 ≤ b && b ≤ 'f'.toUInt8 then .ok (b - 'a'.toUInt8 + 10)
  else if 'A'.toUInt8 ≤ b && b ≤ 'F'.toUInt8 then .ok (b - 'A'.toUInt8 + 10)
  else .error (.badDigit b)

/-- Blank, line feed, form feed, carriage return or tab. -/
def isBlankByte (b : UInt8) : Bool := b == 0x20 || b == 0x09 || b == 0x0a || b == 0x0c || b == 0x0d

def hexPairs : List UInt8 → Except CodeFault (List UInt8)
  | hi :: lo :: rest => do
    let hi ← hexValue hi
    let lo ← hexValue lo
    return (hi * 16 + lo) :: (← hexPairs rest)
  | _ => .ok []

/-- The bytes that hexadecimal text spells; blanks are skipped. -/
def readHex (text : String) : Except CodeFault (List UInt8) :=
  let digits := text.toUTF8.toList.filter fun b => !isBlankByte b
  if digits.length % 2 ≠ 0 then .error (.oddDigits digits.length) else hexPairs digits

namespace CodeDump

def toCode (c : CodeDump) (format : Format) : Except CodeFault RawCode := do
  let bytes ← readHex c.code
  if format = .dalvik ∧ bytes.length % 2 ≠ 0 then throw (.oddLength bytes.length)
  let tries ← c.tries.mapM fun t => do
    let handlers ← t.handlers.mapM fun h => do
      let exception ← match h.exception with
        | none => pure none
        | some name => ((readClass name).mapError CodeFault.exception).map some
      return Handler.mk exception h.target
    return TryRange.mk t.start t.stop handlers
  return ⟨format, c.registers, c.maxStack, bytes.toArray, tries, c.lines⟩

end CodeDump

namespace ClassDump

/-- What the type hierarchy learns from the dump: the classes around it and the class itself. -/
def hierarchyClasses (d : ClassDump) : List ClassInfo :=
  d.classes ++ [.ofNames d.name d.superClass d.interfaces]

def toClass (d : ClassDump) : Except DumpFault ClassInput := do
  let name := Ty.dotted d.name
  let pool ← (d.pool.toPool d.format).mapError (.pool name)
  let methods ← d.methods.mapM fun m => do
    let signature ← (Signature.ofDescriptor name m.name m.descriptor m.access).mapError
      (.descriptor m.descriptor name m.name)
    let code ← match m.code with
      | none => pure none
      | some c => ((c.toCode d.format).mapError (DumpFault.code name m.name)).map some
    return MethodInput.mk signature code
  return ⟨name, d.superClass.map Ty.dotted, d.interfaces.map Ty.dotted, d.access, pool, methods⟩

end ClassDump

end JavaLift
