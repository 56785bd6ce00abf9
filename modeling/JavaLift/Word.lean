import JavaLift.Fault

namespace JavaLift

def signed (bits n : Nat) : Int := Int.bmod n (1 <<< bits)

/-- The offset that a distance from `pc` leads to. Offsets are numbers of 32 bits. -/
def jumpTarget (pc : Nat) (distance : Int) : Except DecodeFault Nat :=
  let t := pc + distance
  if 0 ≤ t ∧ t < 0x100000000 then .ok t.toNat else .error (.malformed pc (.branchLeaves distance))

end JavaLift
