import JavaLift.Fault
import JavaLift.Insn.Basic

/-!
The operand stack as the decoder sees it: the sizes of its values. Slot `k` of the stack is register
`locals + k`, so pushing and popping name the registers that hold the values. Copying and exchanging values on
top of the stack becomes a run of moves; a value that such a run overwrites too early is saved first.
-/

namespace JavaLift.ClassFile

inductive Category where
  | one | two
deriving DecidableEq

namespace Category

def ofType (t : Ty) : Category := if t.isWide then .two else .one

def slots : Category → Nat
  | .one => 1
  | .two => 2

end Category

/-- The sizes of the values on the stack, the topmost first. -/
abbrev Shape := List Category

def slotCount (shape : Shape) : Nat := shape.foldr (fun c n => c.slots + n) 0

structure Frame where
  locals : Nat
  maxStack : Nat

/-- Registers beyond locals and stack, for values saved while others are exchanged. -/
def tempSlots : Nat := 4

abbrev StackM := StateT Shape (Except DecodeFault)

namespace StackM

def fail {α : Type} (pc : Nat) (cause : Malformation) : StackM α := throw (.malformed pc cause)

/-- Puts a value on the stack; the register that holds it. -/
def push (f : Frame) (pc : Nat) (c : Category) : StackM Nat := do
  let shape ← get
  let slot := slotCount shape
  if f.maxStack < slot + c.slots then fail pc .stackOverflow
  set (c :: shape)
  return f.locals + slot

def pop (f : Frame) (pc : Nat) (c : Category) : StackM Nat := do
  match ← get with
  | [] => fail pc .stackUnderflow
  | top :: rest =>
    if top ≠ c then fail pc .categoryMismatch
    set rest
    return f.locals + slotCount rest

/-- Takes two slots from the stack: two small values or a wide one. -/
def popTwo (pc : Nat) : StackM Unit := do
  match ← get with
  | .two :: rest | .one :: .one :: rest => set rest
  | .one :: .two :: _ => fail pc .splitsWide
  | _ => fail pc .stackUnderflow

def peek (pc depth : Nat) : StackM Category := do
  match (← get)[depth]? with
  | some c => return c
  | none => fail pc .stackUnderflow

end StackM

structure Held where
  category : Category
  reg : Nat
deriving DecidableEq

/-- The values of a piece of the stack, lowest first, whose lowest one is in register `reg`. -/
def heldFrom (reg : Nat) : List Category → List Held
  | [] => []
  | c :: rest => ⟨c, reg⟩ :: heldFrom (reg + c.slots) rest

structure Placement where
  target : Nat
  value : Held
deriving DecidableEq

def placementsFrom (reg : Nat) : List Held → List Placement
  | [] => []
  | v :: rest => ⟨reg, v⟩ :: placementsFrom (reg + v.category.slots) rest

/-- Two values in registers of which one is used by both. -/
def overlap (a : Nat) (c : Category) (b : Nat) (d : Category) : Bool := a < b + d.slots && b < a + c.slots

/-- Writing the placements destroys the value where it is now. -/
def destroys (writes : List Placement) (v : Held) : Bool :=
  writes.any fun w => overlap w.target w.value.category v.reg v.category

/-- Saves the values that the placements before their own destroy, each once, from register `temp` on. The
result pairs a value with the register that it is saved in. Registers are numbers of 16 bits: after the last one
comes register 0. -/
def savesFrom (done : List Placement) (saved : List (Held × Nat)) (temp : Nat) : List Placement → List (Held × Nat)
  | [] => saved
  | w :: rest =>
    if (saved.lookup w.value).isNone && destroys done w.value then
      savesFrom (done ++ [w]) (saved ++ [(w.value, temp % 65536)]) (temp + w.value.category.slots) rest
    else savesFrom (done ++ [w]) saved temp rest

def moveInsn (pc target source : Nat) (c : Category) : Insn :=
  let register (reg : Nat) := match c with
    | .one => Register.plain reg
    | .two => .typed reg (.narrow .wide)
  .of .move [.reg (register source)] (some (register target)) pc

/-- The moves that carry out the placements: first those that save values, then those to their targets. -/
def movesFor (pc temp : Nat) (placements : List Placement) : List Insn :=
  let writes := placements.filter fun w => w.target ≠ w.value.reg
  let saved := savesFrom [] [] temp writes
  saved.map (fun (v, t) => moveInsn pc t v.reg v.category)
    ++ writes.map fun w => moveInsn pc w.target ((saved.lookup w.value).getD w.value.reg) w.value.category

/-- Replaces the topmost `take` values by copies of them. The pattern numbers them from the lowest one on. -/
def permute (f : Frame) (pc take : Nat) (pattern : List Nat) : StackM (List Insn) := do
  let shape ← get
  if shape.length < take then StackM.fail pc .stackUnderflow
  let rest := shape.drop take
  let start := f.locals + slotCount rest
  let held := heldFrom start (shape.take take).reverse
  let values := pattern.filterMap fun k => held[k]?
  let fresh := values.map (·.category)
  if f.maxStack < slotCount rest + slotCount fresh then StackM.fail pc .stackOverflow
  set (fresh.reverse ++ rest)
  return movesFor pc (f.locals + f.maxStack) (placementsFrom start values)

end JavaLift.ClassFile
