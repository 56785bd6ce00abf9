import JavaLift.Ty.Descriptor

namespace JavaLift

structure FieldRef where
  className : String
  name : String
  type : Ty
deriving DecidableEq

structure MethodRef where
  className : String
  name : String
  params : List Ty
  ret : Ty
deriving DecidableEq

def registerCount (types : List Ty) : Nat := types.foldr (fun t n => t.width + n) 0

namespace FieldRef

def render (f : FieldRef) : String := f.className ++ "." ++ f.name ++ ":" ++ f.type.descriptor

end FieldRef

namespace MethodRef

def ofDescriptor (className name descriptor : String) : Except DescriptorFault MethodRef :=
  (Ty.ofMethodDescriptor descriptor).map fun (params, ret) => ⟨Ty.dotted className, name, params, ret⟩

def isConstructor (m : MethodRef) : Bool := m.name == "<init>"

/-- The registers that a call passes, with the one of the receiver. -/
def argumentRegisters (m : MethodRef) (isStatic : Bool) : Nat :=
  (if isStatic then 0 else 1) + registerCount m.params

def descriptor (m : MethodRef) : String := Ty.methodDescriptor m.params m.ret

def render (m : MethodRef) : String := m.className ++ "." ++ m.name ++ m.descriptor

end MethodRef

inductive AccessFlag where
  | isPublic | isPrivate | isProtected | isStatic | isFinal | isSynchronized | isNative | isInterface | isAbstract
deriving DecidableEq

def AccessFlag.bit : AccessFlag → Nat
  | .isPublic => 0
  | .isPrivate => 1
  | .isProtected => 2
  | .isStatic => 3
  | .isFinal => 4
  | .isSynchronized => 5
  | .isNative => 8
  | .isInterface => 9
  | .isAbstract => 10

structure Access where
  bits : Nat
deriving DecidableEq

def Access.has (a : Access) (flag : AccessFlag) : Bool := a.bits.testBit flag.bit

structure Signature where
  className : String
  name : String
  params : List Ty
  ret : Ty
  access : Access
deriving DecidableEq

namespace Signature

def ofDescriptor (className name descriptor : String) (access : Access) : Except DescriptorFault Signature :=
  (Ty.ofMethodDescriptor descriptor).map fun (params, ret) => ⟨Ty.dotted className, name, params, ret, access⟩

def isStatic (s : Signature) : Bool := s.access.has .isStatic

def isConstructor (s : Signature) : Bool := s.name == "<init>"

def isClassInitializer (s : Signature) : Bool := s.name == "<clinit>"

def inputRegisters (s : Signature) : Nat := (if s.isStatic then 0 else 1) + registerCount s.params

def descriptor (s : Signature) : String := Ty.methodDescriptor s.params s.ret

end Signature

end JavaLift
