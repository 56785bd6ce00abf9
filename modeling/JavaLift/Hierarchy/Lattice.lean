import JavaLift.Hierarchy.Basic

namespace JavaLift

namespace Candidates

def intersects (s t : Candidates) : Bool := !(s.inter t).isEmpty

end Candidates

namespace Ty

/-- The rank of a number type among those that a smaller one widens to. -/
def rank? : Ty → Option Nat
  | .byte => some 1
  | .short | .char => some 2
  | .int => some 3
  | .long => some 4
  | .float => some 5
  | .double => some 6
  | _ => none

def widened (a b : Ty) : Ty :=
  if a = b then a
  else match a, b with
    | .char, .byte | .char, .short | .byte, .char | .short, .char => .int
    | _, _ => match a.rank?, b.rank? with
      | some x, some y => if y ≤ x then a else b
      | _, _ => .conflict

/-- What may still become a number, so that a number type can widen it. -/
def numeric : Candidates := (Candidates.integral.union .wide).union (.single .float)

def joinCandidates (s : Candidates) (t : Ty) : Ty :=
  if s.intersects t.candidates then t
  else if t.isPrimitive && s.intersects numeric then widened (preferred s) t
  else .conflict

def isAboveArrays (name : String) : Bool :=
  name == objectClass || name == "java.lang.Cloneable" || name == "java.io.Serializable"

end Ty

namespace Hierarchy

/-- The join of two settled types that differ and are not both arrays. -/
def joinSettled (h : Hierarchy) : Ty → Ty → Ty
  | .object x, .object y => (h.common? x y).elim .conflict .object
  | .array _, .object name | .object name, .array _ => if Ty.isAboveArrays name then .object name else .conflict
  | a, b => if a.isPrimitive && b.isPrimitive then Ty.widened a b else .conflict

def join (h : Hierarchy) (a b : Ty) : Ty :=
  if a = .unknown then b
  else if b = .unknown then a
  else if a = .conflict || b = .conflict then .conflict
  else if a = b then a
  else match a, b with
    | .narrow s, .narrow t => if s.intersects t then .narrow (s.inter t) else .conflict
    | .narrow s, t | t, .narrow s => Ty.joinCandidates s t
    | .array x, .array y =>
      if x.isReference && y.isReference then match h.join x y with
        | .conflict => .object Ty.objectClass
        | t => .array t
      else .object Ty.objectClass
    | a, b => h.joinSettled a b

/-- The more special of two demands on a value. Where no type meets both, the first one stays. -/
def meet (h : Hierarchy) (a b : Ty) : Ty :=
  if a = .unknown then b
  else if b = .unknown then a
  else if a = .conflict then b
  else if b = .conflict then a
  else match a, b with
    | .narrow s, .narrow t => if s.intersects t then .narrow (s.inter t) else a
    | .narrow _, t | t, .narrow _ => t
    | .object x, .object y => if h.isSubtype y x then b else a
    | .object _, .array _ => b
    | _, _ => a

/-- The names that the search for the classes above a class looks up. The root is known without. -/
def climbLookups (h : Hierarchy) (name : String) : List String := (h.reached name).filter (· != Ty.objectClass)

def subtypeLookups (h : Hierarchy) (sub sup : String) : List String :=
  if sub == sup || sup == Ty.objectClass then [] else h.climbLookups sub

def commonLookups (h : Hierarchy) (a b : String) : List String :=
  h.subtypeLookups a b
    ++ (if h.isSubtype a b then []
      else h.subtypeLookups b a
        ++ if h.isSubtype b a then [] else h.climbLookups a ++ h.climbLookups b)

def joinLookups (h : Hierarchy) : Ty → Ty → List String
  | .object x, .object y => if x = y then [] else h.commonLookups x y
  | .array x, .array y => if x.isReference && y.isReference then h.joinLookups x y else []
  | _, _ => []

def meetLookups (h : Hierarchy) : Ty → Ty → List String
  | .object x, .object y => if x = y then [] else h.subtypeLookups y x
  | _, _ => []

end Hierarchy

end JavaLift
