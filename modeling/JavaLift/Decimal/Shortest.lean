import JavaLift.Decimal.Binary

/-!
The shortest decimal that reads back as a given floating point number: the fewest digits of which some value
rounds to the number, and of those the nearest one.
-/

namespace JavaLift

/-- A positive decimal `0.d₁d₂… * 10 ^ point`. -/
structure Decimal where
  digits : List Nat
  point : Int
deriving DecidableEq

namespace Decimal

/-- The reals that round to a magnitude, as `low / den` to `high / den`, around `value / den`. -/
structure Interval where
  low : Nat
  value : Nat
  high : Nat
  den : Nat
  closed : Bool

/-- The interval of `m * 2 ^ q`. It is narrower below when `m` is the least mantissa of its binade. -/
def Interval.of (f : BinaryFormat) (m : Nat) (q : Int) : Interval :=
  let narrow := m == 1 <<< f.fractionBits && f.minExponent < q
  let (unit, den) := BinaryFormat.scale 1 4 q
  ⟨(if narrow then 4 * m - 1 else 4 * m - 2) * unit, 4 * m * unit, (4 * m + 2) * unit, den, m % 2 == 0⟩

def Interval.contains (i : Interval) (n den : Nat) : Bool :=
  if i.closed then i.low * den ≤ n * i.den && n * i.den ≤ i.high * den
  else i.low * den < n * i.den && n * i.den < i.high * den

def powerOfTen (e : Int) : Nat × Nat := if 0 ≤ e then (Nat.pow 10 e.toNat, 1) else (1, Nat.pow 10 (-e).toNat)

/-- The least `point` with `value < 10 ^ point`, found from a start that is not above it. -/
def pointFrom (num den : Nat) : Nat → Int → Int
  | 0, e => e
  | tries + 1, e =>
    let (p, d) := powerOfTen e
    if num * d < p * den then e else pointFrom num den tries (e + 1)

/-- A lower estimate of the decimal point from the binary exponent; it is at most two below. -/
def pointOf (num den : Nat) : Int :=
  let e := BinaryFormat.exponentOf num den
  pointFrom num den 4 ((e * 30103) / 100000)

/-- The multiple of `10 ^ (point - count)` in the interval that is nearest to the value; a half goes up. -/
def onGrid? (i : Interval) (point : Int) (count : Nat) : Option Nat :=
  let (p, d) := powerOfTen (point - count)
  let below := i.value * d / (i.den * p)
  let inside n := i.contains (n * p) d
  let rest := i.value * d - below * (i.den * p)
  match inside below, inside (below + 1) with
  | true, true => some (if 2 * rest < i.den * p then below else below + 1)
  | true, false => some below
  | false, true => some (below + 1)
  | false, false => none

def search (i : Interval) (point : Int) : Nat → Nat → Option (Nat × Nat)
  | 0, _ => none
  | tries + 1, count => match onGrid? i point count with
    | some n => some (n, count)
    | none => search i point tries (count + 1)

def significantDigits (n : Nat) : List Nat :=
  ((Nat.toDigits 10 n).map fun c => c.toNat - '0'.toNat).reverse.dropWhile (· == 0) |>.reverse

def shortest (f : BinaryFormat) (magnitude : Nat) : Decimal :=
  let (m, q) := f.decode magnitude
  let i := Interval.of f m q
  let point := pointOf i.value i.den
  match search i point 17 1 with
  | some (n, count) => ⟨significantDigits n, point - count + (Nat.toDigits 10 n).length⟩
  | none => ⟨[], 0⟩

end Decimal

/-- How a floating point number is written: positional when the magnitude's power of ten lies in the range
`low ≤ · < high` of the decimal point, and with an exponent otherwise. -/
structure FloatText where
  low : Int
  high : Int
  zero : String

namespace FloatText

def digitText (digits : List Nat) : String := String.ofList (digits.map Nat.digitChar)

def positional (d : Decimal) : String :=
  if d.point ≤ 0 then "0." ++ digitText (List.replicate (-d.point).toNat 0 ++ d.digits)
  else
    let n := d.point.toNat
    if d.digits.length ≤ n then digitText (d.digits ++ List.replicate (n - d.digits.length) 0) ++ ".0"
    else digitText (d.digits.take n) ++ "." ++ digitText (d.digits.drop n)

def scientific (d : Decimal) : String :=
  digitText (d.digits.take 1) ++ (if d.digits.length ≤ 1 then "" else "." ++ digitText (d.digits.drop 1))
    ++ "e" ++ toString (d.point - 1)

def render (t : FloatText) (f : BinaryFormat) (bits : Nat) : String :=
  let magnitude := f.magnitude bits
  let d := Decimal.shortest f magnitude
  (if f.isNegative bits then "-" else "") ++
    (if magnitude = 0 then t.zero else if t.low ≤ d.point && d.point < t.high then positional d else scientific d)

/-- Positional from `1e-4` up to, but not including, `1e16`. -/
def plain : FloatText := ⟨-3, 17, "0.0"⟩

end FloatText

end JavaLift
