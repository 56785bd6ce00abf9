import JavaLift.Member

namespace JavaLift

/-- A constant that code can load. A floating point number is kept as its bits. -/
inductive Constant where
  | int (value : Int)
  | float (bits : Nat)
  | long (value : Int)
  | double (bits : Nat)
  | string (text : String)
  | cls (type : Ty)
deriving DecidableEq

structure Tables where
  strings : Array String
  types : Array Ty
  fields : Array FieldRef
  methods : Array MethodRef

inductive PoolEntry where
  | constant (value : Constant)
  | field (ref : FieldRef)
  | method (ref : MethodRef)
deriving DecidableEq

inductive Pool where
  | tables (t : Tables)
  | numbered (entries : List (Nat × PoolEntry))

namespace Pool

/-- The entry of an index in a numbered pool: the last one given. -/
def entry? (entries : List (Nat × PoolEntry)) (index : Nat) : Option PoolEntry :=
  (entries.reverse.find? fun e => e.1 == index).map (·.2)

/-- A loadable constant; only class file pools have them. -/
def constant? : Pool → Nat → Option Constant
  | .tables _, _ => none
  | .numbered entries, i => match entry? entries i with
    | some (.constant c) => some c
    | _ => none

def string? : Pool → Nat → Option String
  | .tables t, i => t.strings[i]?
  | .numbered entries, i => match entry? entries i with
    | some (.constant (.string s)) => some s
    | _ => none

def type? : Pool → Nat → Option Ty
  | .tables t, i => t.types[i]?
  | .numbered entries, i => match entry? entries i with
    | some (.constant (.cls type)) => some type
    | _ => none

def field? : Pool → Nat → Option FieldRef
  | .tables t, i => t.fields[i]?
  | .numbered entries, i => match entry? entries i with
    | some (.field f) => some f
    | _ => none

def method? : Pool → Nat → Option MethodRef
  | .tables t, i => t.methods[i]?
  | .numbered entries, i => match entry? entries i with
    | some (.method m) => some m
    | _ => none

end Pool

end JavaLift
