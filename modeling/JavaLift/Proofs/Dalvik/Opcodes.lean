import JavaLift.Dalvik.Opcode
import Mathlib

namespace JavaLift.Dalvik

/-- The first number of the type's operators among the binary ones. -/
def NumberType.base : NumberType → Nat
  | .int => 0
  | .long => 11
  | .float => 22
  | .double => 27

namespace CompareKind

/-- The sort of a comparison by its variant; the last one takes what is beyond it. -/
def ofVariant : Nat → CompareKind
  | 0 => .lessFloat
  | 1 => .greaterFloat
  | 2 => .lessDouble
  | 3 => .greaterDouble
  | _ => .long

def index : CompareKind → Nat
  | .lessFloat => 0
  | .greaterFloat => 1
  | .lessDouble => 2
  | .greaterDouble => 3
  | .long => 4

theorem index_ofVariant : (variant : Nat) → (ofVariant variant).index = min variant 4
  | 0 | 1 | 2 | 3 => rfl
  | n + 4 => (Nat.min_eq_right (Nat.le_add_left 4 n)).symm

end CompareKind

namespace ElementKind

def ofVariant : Nat → ElementKind
  | 0 => .single
  | 1 => .wide
  | 2 => .object
  | 3 => .boolean
  | 4 => .byte
  | 5 => .char
  | _ => .short

theorem index_ofVariant : (variant : Nat) → (ofVariant variant).index = min variant 6
  | 0 | 1 | 2 | 3 | 4 | 5 => rfl
  | n + 6 => (Nat.min_eq_right (Nat.le_add_left 6 n)).symm

end ElementKind

namespace Opcode

/-- The operator on a register and a literal by its variant. -/
def literalOp : Nat → ArithOp
  | 0 => .add
  | 1 => .sub
  | 2 => .mul
  | 3 => .div
  | 4 => .rem
  | 5 => .and
  | 6 => .or
  | 7 => .xor
  | 8 => .shl
  | 9 => .shr
  | _ => .ushr

theorem index_literalOp : (variant : Nat) → (literalOp variant).index = min variant 10
  | 0 | 1 | 2 | 3 | 4 | 5 | 6 | 7 | 8 | 9 => rfl
  | n + 10 => (Nat.min_eq_right (Nat.le_add_left 10 n)).symm

def byte : Opcode → Nat
  | .nop => 0x00
  | .move kind width => 0x01 + 3 * kind.index + width.index
  | .moveResult kind => 0x0a + kind.index
  | .moveException => 0x0d
  | .returnVoid => 0x0e
  | .ret kind => 0x0f + kind.index
  | .const4 => 0x12
  | .const16 => 0x13
  | .const32 => 0x14
  | .constHigh16 => 0x15
  | .constWide16 => 0x16
  | .constWide32 => 0x17
  | .constWide64 => 0x18
  | .constWideHigh16 => 0x19
  | .constString => 0x1a
  | .constStringJumbo => 0x1b
  | .constClass => 0x1c
  | .monitorEnter => 0x1d
  | .monitorExit => 0x1e
  | .checkCast => 0x1f
  | .instanceOf => 0x20
  | .arrayLength => 0x21
  | .newInstance => 0x22
  | .newArray => 0x23
  | .filledNewArray range => if range then 0x25 else 0x24
  | .fillArrayData => 0x26
  | .throw => 0x27
  | .goto8 => 0x28
  | .goto16 => 0x29
  | .goto32 => 0x2a
  | .packedSwitch => 0x2b
  | .sparseSwitch => 0x2c
  | .compare kind => 0x2d + kind.index
  | .ifCmp cmp => 0x32 + cmp.index
  | .ifZero cmp => 0x38 + cmp.index
  | .arrayGet kind => 0x44 + kind.index
  | .arrayPut kind => 0x4b + kind.index
  | .instanceGet kind => 0x52 + kind.index
  | .instancePut kind => 0x59 + kind.index
  | .staticGet kind => 0x60 + kind.index
  | .staticPut kind => 0x67 + kind.index
  | .invoke kind range => (if range then 0x74 else 0x6e) + kind.index
  | .unary i => 0x7b + i
  | .binary op type => 0x90 + type.base + op.index
  | .binaryTwo op type => 0xb0 + type.base + op.index
  | .binaryLiteral op wideLiteral => (if wideLiteral then 0xd0 else 0xd8) + op.index

def all : List Opcode := families.flatMap (·.2)

theorem byte_lt : ∀ o ∈ all, o.byte < 256 := by decide +kernel

theorem ofByte?_byte : ∀ o ∈ all, ofByte? o.byte = some o := by decide +kernel

theorem unary_mem : ∀ i < 21, .unary i ∈ all := by decide +kernel

end Opcode

end JavaLift.Dalvik
