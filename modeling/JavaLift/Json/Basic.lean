namespace JavaLift

/-- A number as written: sign, digits before the point, digits after it, and the exponent, if there is one. -/
structure JsonNumber where
  negative : Bool
  whole : List Nat
  fraction : List Nat
  exponent : Option Int
deriving DecidableEq

/-- A JSON value. `unpaired` is a string that holds half of a surrogate pair: it has no text. -/
inductive Json where
  | null
  | bool (value : Bool)
  | num (value : JsonNumber)
  | str (text : String)
  | unpaired
  | arr (items : List Json)
  | obj (members : List (String × Json))
deriving Inhabited

namespace JsonNumber

def ofDigits (digits : List Nat) : Nat := digits.foldl (fun n d => 10 * n + d) 0

def isWhole (n : JsonNumber) : Bool := n.fraction.isEmpty && n.exponent.isNone

/-- The value of an integer. A negative zero is not one: it is a floating point number. -/
def toInt? (n : JsonNumber) : Option Int :=
  let magnitude := ofDigits n.whole
  if !n.isWhole || (n.negative && magnitude == 0) then none
  else some (if n.negative then -(magnitude : Int) else magnitude)

def toIntIn? (lo hi : Int) (n : JsonNumber) : Option Int :=
  n.toInt?.filter fun i => lo ≤ i && i ≤ hi

def ofNat (n : Nat) : JsonNumber := ⟨false, (Nat.toDigits 10 n).map fun c => c.toNat - '0'.toNat, [], none⟩

def ofInt (i : Int) : JsonNumber := { ofNat i.natAbs with negative := i < 0 }

end JsonNumber

namespace Json

def ofNat (n : Nat) : Json := .num (.ofNat n)

def ofInt (i : Int) : Json := .num (.ofInt i)

def ofOption {α : Type} (f : α → Json) : Option α → Json
  | none => .null
  | some a => f a

def ofList {α : Type} (f : α → Json) (items : List α) : Json := .arr (items.map f)

def text? : Json → Option String
  | .str s => some s
  | _ => none

def bool? : Json → Option Bool
  | .bool b => some b
  | _ => none

def items? : Json → Option (List Json)
  | .arr items => some items
  | _ => none

def intIn? (lo hi : Int) : Json → Option Int
  | .num n => n.toIntIn? lo hi
  | _ => none

def unsigned? (width : Nat) (value : Json) : Option Nat :=
  (value.intIn? 0 ((1 <<< width : Nat) - 1)).map Int.toNat

def nullable? {α : Type} (read : Json → Option α) : Json → Option (Option α)
  | .null => some none
  | value => (read value).map some

def list? {α : Type} (read : Json → Option α) (value : Json) : Option (List α) :=
  value.items?.bind fun items => items.mapM read

abbrev Record := List (String × Json)

/-- The known members of an object, each at most once. -/
def Record.ofMembers? (names : List String) (members : List (String × Json)) : Option Record :=
  let known := members.filter fun m => names.contains m.1
  if names.all fun n => (known.filter (·.1 == n)).length ≤ 1 then some known else none

/-- Reads an object or an array as a record with the given field names. -/
def Record.ofJson? (names : List String) : Json → Option Record
  | .obj members => ofMembers? names members
  | .arr items => if items.length ≤ names.length then some (names.zip items) else none
  | _ => none

def Record.field? {α : Type} (r : Record) (name : String) (read : Json → Option α) : Option α :=
  (r.lookup name).bind read

def Record.fieldOr? {α : Type} (r : Record) (name : String) (missing : α) (read : Json → Option α) : Option α :=
  match r.lookup name with
  | none => some missing
  | some value => read value

end Json

end JavaLift
