import JavaLift.Dump.Basic
import JavaLift.Json.Float
import JavaLift.Json.Reader
import JavaLift.Json.Basic

namespace JavaLift

open Json (Record)

def listField? {α : Type} (r : Record) (name : String) (read : Json → Option α) : Option (List α) :=
  r.fieldOr? name [] (Json.list? read)

def countField? (r : Record) (name : String) (width : Nat) : Option Nat :=
  r.fieldOr? name 0 (Json.unsigned? width)

def MemberDump.ofRecord? (r : Record) : Option MemberDump := do
  let className ← r.field? "class" Json.text?
  let name ← r.field? "name" Json.text?
  let descriptor ← r.field? "descriptor" Json.text?
  return ⟨className, name, descriptor⟩

def MemberDump.ofJson? (value : Json) : Option MemberDump :=
  (Record.ofJson? ["class", "name", "descriptor"] value).bind ofRecord?

namespace EntryValue

/-- The kinds of entries, in the order of the numbers that also name them. -/
def kinds : List String := ["class", "string", "int", "float", "long", "double", "field", "method"]

def number? (read : JsonNumber → Option Nat) : Json → Option Nat
  | .num n => read n
  | _ => none

def ofKind? (members : List (String × Json)) : Nat → Option EntryValue
  | 0 => do return .cls (← (← Record.ofMembers? ["name"] members).field? "name" Json.text?)
  | 1 => do return .string (← (← Record.ofMembers? ["value"] members).field? "value" Json.text?)
  | 2 => do
    return .int (← (← Record.ofMembers? ["value"] members).field? "value" (Json.intIn? (-0x80000000) 0x7fffffff))
  | 3 => do
    return .float (← (← Record.ofMembers? ["value"] members).field? "value" (number? JsonNumber.toSingle?))
  | 4 => do
    return .long (← (← Record.ofMembers? ["value"] members).field? "value" (Json.intIn? (-0x8000000000000000) 0x7fffffffffffffff))
  | 5 => do
    return .double (← (← Record.ofMembers? ["value"] members).field? "value" (number? JsonNumber.toDouble?))
  | 6 => do
    return .field (← MemberDump.ofRecord? (← Record.ofMembers? ["class", "name", "descriptor"] members))
  | 7 => do
    return .method (← MemberDump.ofRecord? (← Record.ofMembers? ["class", "name", "descriptor"] members))
  | _ => none

def kind? : Json → Option Nat
  | .str s => kinds.idxOf? s
  | value => value.unsigned? 64

/-- A numbered entry: always an object, with the fields that its kind calls for. The members that it does not
call for still have to be sound. -/
def ofJson? : Json → Option (Nat × EntryValue)
  | .obj members => do
    let r ← Record.ofMembers? ["index", "kind"] members
    guard (Json.membersSound members)
    let index ← r.field? "index" (Json.unsigned? 32)
    let kind ← r.field? "kind" kind?
    let value ← ofKind? members kind
    return (index, value)
  | _ => none

end EntryValue

namespace PoolDump

def empty : PoolDump := ⟨[], [], [], [], []⟩

def ofJson? (value : Json) : Option PoolDump := do
  let r ← Record.ofJson? ["strings", "types", "fields", "methods", "entries"] value
  let strings ← listField? r "strings" Json.text?
  let types ← listField? r "types" Json.text?
  let fields ← listField? r "fields" MemberDump.ofJson?
  let methods ← listField? r "methods" MemberDump.ofJson?
  let entries ← listField? r "entries" EntryValue.ofJson?
  return ⟨strings, types, fields, methods, entries⟩

end PoolDump

def HandlerDump.ofJson? (value : Json) : Option HandlerDump := do
  let r ← Record.ofJson? ["exception", "target"] value
  let exception ← r.fieldOr? "exception" none (Json.nullable? Json.text?)
  let target ← r.field? "target" (Json.unsigned? 32)
  return ⟨exception, target⟩

def TryDump.ofJson? (value : Json) : Option TryDump := do
  let r ← Record.ofJson? ["start", "end", "handlers"] value
  let start ← r.field? "start" (Json.unsigned? 32)
  let stop ← r.field? "end" (Json.unsigned? 32)
  let handlers ← r.field? "handlers" (Json.list? HandlerDump.ofJson?)
  return ⟨start, stop, handlers⟩

def LineEntry.ofJson? (value : Json) : Option LineEntry := do
  let r ← Record.ofJson? ["offset", "line"] value
  let offset ← r.field? "offset" (Json.unsigned? 32)
  let line ← r.field? "line" (Json.unsigned? 32)
  return ⟨offset, line⟩

def CodeDump.ofJson? (value : Json) : Option CodeDump := do
  let r ← Record.ofJson? ["registers", "max_stack", "code", "tries", "lines"] value
  let registers ← r.field? "registers" (Json.unsigned? 16)
  let maxStack ← countField? r "max_stack" 16
  let code ← r.field? "code" Json.text?
  let tries ← listField? r "tries" TryDump.ofJson?
  let lines ← listField? r "lines" LineEntry.ofJson?
  return ⟨registers, maxStack, code, tries, lines⟩

def MethodDump.ofJson? (value : Json) : Option MethodDump := do
  let r ← Record.ofJson? ["name", "descriptor", "access_flags", "code"] value
  let name ← r.field? "name" Json.text?
  let descriptor ← r.field? "descriptor" Json.text?
  let access ← countField? r "access_flags" 32
  let code ← r.fieldOr? "code" none (Json.nullable? CodeDump.ofJson?)
  return ⟨name, descriptor, ⟨access⟩, code⟩

def ClassInfo.ofJson? (value : Json) : Option ClassInfo := do
  let r ← Record.ofJson? ["name", "super_class", "interfaces"] value
  let name ← r.field? "name" Json.text?
  let superClass ← r.fieldOr? "super_class" none (Json.nullable? Json.text?)
  let interfaces ← listField? r "interfaces" Json.text?
  return ⟨name, superClass, interfaces⟩

/-- The name of a format, or an object with that name as its only key and null as its value. -/
def Format.ofJson? : Json → Option Format
  | .str "dalvik" | .obj [("dalvik", .null)] => some .dalvik
  | .str "jvm" | .obj [("jvm", .null)] => some .classFile
  | _ => none

namespace ClassDump

def ofJson? (value : Json) : Option ClassDump := do
  let r ← Record.ofJson?
    ["name", "super_class", "interfaces", "access_flags", "format", "pool", "methods", "classes"] value
  let name ← r.field? "name" Json.text?
  let superClass ← r.fieldOr? "super_class" none (Json.nullable? Json.text?)
  let interfaces ← listField? r "interfaces" Json.text?
  let access ← countField? r "access_flags" 32
  let format ← r.fieldOr? "format" .dalvik Format.ofJson?
  let pool ← r.fieldOr? "pool" .empty PoolDump.ofJson?
  let methods ← listField? r "methods" MethodDump.ofJson?
  let classes ← listField? r "classes" ClassInfo.ofJson?
  return ⟨name, superClass, interfaces, ⟨access⟩, format, pool, methods, classes⟩

def listOfJson? : Json → Option (List ClassDump)
  | .arr items => items.mapM ofJson?
  | value => (ofJson? value).map ([·])

def parse? (text : String) : Option (List ClassDump) := (Json.parse? text).bind listOfJson?

end ClassDump

end JavaLift
