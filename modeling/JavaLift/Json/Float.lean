import JavaLift.Json.Basic
import JavaLift.Decimal.Binary

/-!
Floating point numbers read from JSON. The digits are gathered into a whole number below `2 ^ 64`, which is
rounded, and then scaled by a rounded power of ten; so a long number may miss the nearest one by a place.
-/

namespace JavaLift

namespace JsonNumber

/-- The digits gathered so far, as `value * 10 ^ exponent`. -/
structure Gathered where
  value : Nat
  exponent : Int
  full : Bool

/-- Takes a digit before the point. The first one that does not fit stands for a zero, and so do all after it. -/
def Gathered.whole (g : Gathered) (d : Nat) : Gathered :=
  if g.full || 0x10000000000000000 ≤ g.value * 10 + d then { g with exponent := g.exponent + 1, full := true }
  else { g with value := g.value * 10 + d }

/-- Takes a digit after the point. The first one that does not fit ends the number. -/
def Gathered.fraction (g : Gathered) (d : Nat) : Gathered :=
  if g.full || 0x10000000000000000 ≤ g.value * 10 + d then { g with full := true }
  else { g with value := g.value * 10 + d, exponent := g.exponent - 1 }

def gathered (n : JsonNumber) : Gathered :=
  let w := n.whole.foldl Gathered.whole ⟨0, 0, false⟩
  let g := n.fraction.foldl Gathered.fraction { w with full := false }
  { g with exponent := g.exponent + n.exponent.getD 0 }

def powerOfTen (e : Nat) : Nat := BinaryFormat.double.nearest (Nat.pow 10 e) 1

/-- Divides by powers of ten until the rest of the exponent is in the table. A result of zero stays zero. -/
def scaleDown (magnitude : Nat) : Nat → Nat → Nat
  | 0, e => BinaryFormat.double.div magnitude (powerOfTen (min e 308))
  | rounds + 1, e =>
    if e ≤ 308 then BinaryFormat.double.div magnitude (powerOfTen e)
    else if magnitude = 0 then 0
    else scaleDown (BinaryFormat.double.div magnitude (powerOfTen 308)) rounds (e - 308)

/-- The magnitude of a number with point or exponent; none where it is too large. -/
def magnitude? (n : JsonNumber) : Option Nat :=
  let f := BinaryFormat.double
  let g := n.gathered
  let start := f.nearest g.value 1
  if g.exponent < 0 then some (scaleDown start 4 (-g.exponent).toNat)
  else if start = 0 then some 0
  else if 308 < g.exponent then none
  else
    let scaled := f.mul start (powerOfTen g.exponent.toNat)
    if scaled = f.infinity then none else some scaled

def small? (n : JsonNumber) : Option Int :=
  n.toIntIn? (-0x8000000000000000) 0xffffffffffffffff

def toDouble? (n : JsonNumber) : Option Nat :=
  let f := BinaryFormat.double
  match n.small? with
  | some i => some (f.withSign (i < 0) (f.nearest i.natAbs 1))
  | none => n.magnitude?.map (f.withSign n.negative)

def toSingle? (n : JsonNumber) : Option Nat :=
  let f := BinaryFormat.single
  match n.small? with
  | some i => some (f.withSign (i < 0) (f.nearest i.natAbs 1))
  | none => n.toDouble?.map (BinaryFormat.double.convert f)

end JsonNumber

namespace Json

mutual

def isSound : Json → Bool
  | .null | .bool _ | .str _ => true
  | .unpaired => false
  | .num n => n.toDouble?.isSome
  | .arr items => itemsSound items
  | .obj members => membersSound members

def itemsSound : List Json → Bool
  | [] => true
  | v :: rest => v.isSound && itemsSound rest

def membersSound : List (String × Json) → Bool
  | [] => true
  | (_, v) :: rest => v.isSound && membersSound rest

end

end Json

end JavaLift
