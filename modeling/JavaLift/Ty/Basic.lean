import JavaLift.Ty.Candidates

namespace JavaLift

/-- The type of a value. `narrow` is known up to a set of candidates, `conflict` is the type of a value with
two uses that no type allows. -/
inductive Ty where
  | unknown | void | boolean | byte | short | char | int | long | float | double
  | object (name : String)
  | array (element : Ty)
  | narrow (candidates : Candidates)
  | conflict
deriving DecidableEq

namespace Ty

instance : Inhabited Ty := ⟨unknown⟩

def objectClass : String := "java.lang.Object"
def stringClass : String := "java.lang.String"
def classClass : String := "java.lang.Class"
def throwableClass : String := "java.lang.Throwable"

def dotted (name : String) : String := name.map fun c => if c = '/' then '.' else c

def slashed (name : String) : String := name.map fun c => if c = '.' then '/' else c

def ofClassName (name : String) : Ty := .object (dotted name)

def isWide : Ty → Bool
  | .long | .double => true
  | .narrow s => !s.isEmpty && s.isSubset .wide
  | _ => false

def width (t : Ty) : Nat := if t.isWide then 2 else 1

def isReference : Ty → Bool
  | .object _ | .array _ => true
  | _ => false

def isPrimitive : Ty → Bool
  | .boolean | .byte | .short | .char | .int | .long | .float | .double => true
  | _ => false

def isKnown : Ty → Bool
  | .unknown | .narrow _ | .conflict => false
  | _ => true

def candidates : Ty → Candidates
  | .boolean => .single .boolean
  | .byte => .single .byte
  | .short => .single .short
  | .char => .single .char
  | .int => .single .int
  | .long => .single .long
  | .float => .single .float
  | .double => .single .double
  | .object _ => .single .object
  | .array _ => .single .array
  | .narrow s => s
  | .unknown | .void | .conflict => .empty

/-- The type taken for an undecided value: the first kind of this order that the set has. -/
def preferred (s : Candidates) : Ty :=
  if s.contains .int then .int
  else if s.contains .boolean then .boolean
  else if s.contains .long then .long
  else if s.contains .float then .float
  else if s.contains .double then .double
  else if s.contains .char then .char
  else if s.contains .short then .short
  else if s.contains .byte then .byte
  else .object objectClass

def ofSingle? (s : Candidates) : Option Ty := if s.size = 1 then some (preferred s) else none

def resolved : Ty → Ty
  | .narrow s => preferred s
  | .unknown | .conflict => .object objectClass
  | t => t

def element? : Ty → Option Ty
  | .array t => some t
  | _ => none

/-- A class directly in `java.lang` goes by its last name. -/
def shortClassName (name : String) : String :=
  match "java.lang.".toList.isPrefixOf? name.toList with
  | some rest => if rest.contains '.' then name else String.ofList rest
  | none => name

/-- The part after the last `c`, or all of it where there is none. -/
def afterLast (c : Char) (cs : List Char) : List Char := (cs.reverse.takeWhile (· != c)).reverse

/-- The name that a class has in its own body: after the last dot, and after the last dollar sign. -/
def simpleClassName (name : String) : String := String.ofList (afterLast '$' (afterLast '.' name.toList))

def plainName : Ty → String
  | .void => "void"
  | .boolean => "boolean"
  | .byte => "byte"
  | .short => "short"
  | .char => "char"
  | .int => "int"
  | .long => "long"
  | .float => "float"
  | .double => "double"
  | .object name => shortClassName name
  | .array _ | .narrow _ | .unknown | .conflict => "Object"

def javaName : Ty → String
  | .array t => javaName t ++ "[]"
  | t => t.resolved.plainName

def render : Ty → String
  | .unknown => "?"
  | .conflict => "<conflict>"
  | .narrow s => s.render
  | .object name => name
  | t => t.javaName

end Ty

end JavaLift
