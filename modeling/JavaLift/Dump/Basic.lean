import JavaLift.Body

namespace JavaLift

structure MemberDump where
  className : String
  name : String
  descriptor : String

/-- The value of a numbered pool entry. A class is named with slashes or dots, or by an array descriptor. -/
inductive EntryValue where
  | cls (name : String)
  | string (value : String)
  | int (value : Int)
  | float (bits : Nat)
  | long (value : Int)
  | double (bits : Nat)
  | field (member : MemberDump)
  | method (member : MemberDump)

structure PoolDump where
  strings : List String
  types : List String
  fields : List MemberDump
  methods : List MemberDump
  entries : List (Nat × EntryValue)

/-- The entry of a handler; without an exception it catches all. -/
structure HandlerDump where
  exception : Option String
  target : Nat

structure TryDump where
  start : Nat
  stop : Nat
  handlers : List HandlerDump

structure CodeDump where
  registers : Nat
  maxStack : Nat
  code : String
  tries : List TryDump
  lines : List LineEntry

structure MethodDump where
  name : String
  descriptor : String
  access : Access
  code : Option CodeDump

structure ClassDump where
  name : String
  superClass : Option String
  interfaces : List String
  access : Access
  format : Format
  pool : PoolDump
  methods : List MethodDump
  classes : List ClassInfo

end JavaLift
