namespace JavaLift

/-- A format with a hidden leading bit: the stored bits of the fraction and the bits of the exponent. -/
structure BinaryFormat where
  fractionBits : Nat
  exponentBits : Nat
deriving DecidableEq

namespace BinaryFormat

def single : BinaryFormat := ⟨23, 8⟩

def double : BinaryFormat := ⟨52, 11⟩

/-- The exponent of the last place of the smallest numbers. -/
def minExponent (f : BinaryFormat) : Int := 2 - (1 <<< (f.exponentBits - 1) : Nat) - f.fractionBits

/-- The pattern of positive infinity, the first one above all finite magnitudes. -/
def infinity (f : BinaryFormat) : Nat := ((1 <<< f.exponentBits) - 1) <<< f.fractionBits

def magnitude (f : BinaryFormat) (bits : Nat) : Nat := bits % (1 <<< (f.fractionBits + f.exponentBits))

def isNegative (f : BinaryFormat) (bits : Nat) : Bool := bits.testBit (f.fractionBits + f.exponentBits)

def withSign (f : BinaryFormat) (negative : Bool) (magnitude : Nat) : Nat :=
  if negative then (1 <<< (f.fractionBits + f.exponentBits)) + magnitude else magnitude

def isNaN (f : BinaryFormat) (bits : Nat) : Bool := f.infinity < f.magnitude bits

def isInfinite (f : BinaryFormat) (bits : Nat) : Bool := f.magnitude bits == f.infinity

/-- A finite magnitude as `m * 2 ^ q`. -/
def decode (f : BinaryFormat) (magnitude : Nat) : Nat × Int :=
  let exponent := magnitude >>> f.fractionBits
  let fraction := magnitude % (1 <<< f.fractionBits)
  if exponent = 0 then (fraction, f.minExponent)
  else (fraction + (1 <<< f.fractionBits), f.minExponent + (exponent - 1 : Nat))

def roundHalfEven (num den : Nat) : Nat :=
  let q := num / den
  let r := num % den
  if 2 * r < den then q else if den < 2 * r then q + 1 else q + q % 2

/-- `num * 2 ^ e / den` as a quotient of naturals. -/
def scale (num den : Nat) (e : Int) : Nat × Nat :=
  if 0 ≤ e then (num <<< e.toNat, den) else (num, den <<< (-e).toNat)

/-- The largest `e` with `2 ^ e ≤ num / den`, for positive arguments. -/
def exponentOf (num den : Nat) : Int :=
  let e : Int := (Nat.log2 num : Int) - Nat.log2 den
  let (n, d) := scale num den (-e)
  if d ≤ n then e else e - 1

/-- The pattern of the magnitude nearest to `num / den`, ties to even; too large a quotient gives infinity. -/
def nearest (f : BinaryFormat) (num den : Nat) : Nat :=
  if num = 0 then 0
  else
    let q := max (exponentOf num den - f.fractionBits) f.minExponent
    let (n, d) := scale num den (-q)
    min f.infinity (((q - f.minExponent).toNat <<< f.fractionBits) + roundHalfEven n d)

def ofDyadic (f : BinaryFormat) (m : Nat) (q : Int) : Nat :=
  let (n, d) := scale m 1 q
  f.nearest n d

/-- The pattern in `g` nearest to a pattern of `f`. A value that is no number keeps being none. -/
def convert (f g : BinaryFormat) (bits : Nat) : Nat :=
  let magnitude := f.magnitude bits
  let sized :=
    if f.isNaN bits then g.infinity + (1 <<< (g.fractionBits - 1))
    else if magnitude = f.infinity then g.infinity
    else
      let (m, q) := f.decode magnitude
      g.ofDyadic m q
  g.withSign (f.isNegative bits) sized

def mul (f : BinaryFormat) (a b : Nat) : Nat :=
  let (m, p) := f.decode a
  let (n, q) := f.decode b
  f.ofDyadic (m * n) (p + q)

def div (f : BinaryFormat) (a b : Nat) : Nat :=
  let (m, p) := f.decode a
  let (n, q) := f.decode b
  let (x, y) := scale m n (p - q)
  f.nearest x y

end BinaryFormat

end JavaLift
