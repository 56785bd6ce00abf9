import JavaLift.Insn.Basic
import JavaLift.Pool

namespace JavaLift

inductive Format where
  | dalvik | classFile
deriving DecidableEq

/-- The entry of a handler, for one type of exception or for all. -/
structure Handler where
  exception : Option Ty
  target : Nat
deriving DecidableEq

/-- The offsets from `start` up to `stop` are guarded by the handlers. -/
structure TryRange where
  start : Nat
  stop : Nat
  handlers : List Handler
deriving DecidableEq

structure LineEntry where
  offset : Nat
  line : Nat
deriving DecidableEq

/-- A body before decoding. `registers` counts the locals only in a class file, and only there is a stack. -/
structure RawCode where
  format : Format
  registers : Nat
  maxStack : Nat
  bytes : Array UInt8
  tries : List TryRange
  lines : List LineEntry

/-- A decoded body. `params` are the registers of the arguments without the receiver, and `length` is the first
offset after the code. -/
structure MethodBody where
  insns : List Insn
  registers : Nat
  receiver : Option Nat
  params : List Register
  tries : List TryRange
  length : Nat

/-- What a class is to the type hierarchy. Without a super class it stands directly below the root. -/
structure ClassInfo where
  name : String
  superClass : Option String
  interfaces : List String
deriving DecidableEq

def ClassInfo.ofNames (name : String) (superClass : Option String) (interfaces : List String) : ClassInfo :=
  ⟨Ty.dotted name, superClass.map Ty.dotted, interfaces.map Ty.dotted⟩

/-- A method to decompile. Abstract and native methods have no code. -/
structure MethodInput where
  signature : Signature
  code : Option RawCode

structure ClassInput where
  name : String
  superClass : Option String
  interfaces : List String
  access : Access
  pool : Pool
  methods : List MethodInput

end JavaLift
