import JavaLift.Decimal.Shortest
import JavaLift.Text.Hex
import JavaLift.Ty.Basic
import JavaLift.Word

namespace JavaLift.Source

def unitEscape (n : Nat) : String := "\\u" ++ Text.hex 4 n

def floatLiteral (f : BinaryFormat) (owner mark : String) (bits : Nat) : String :=
  if f.isNaN bits then owner ++ ".NaN"
  else if f.isInfinite bits then owner ++ (if f.isNegative bits then ".NEGATIVE" else ".POSITIVE") ++ "_INFINITY"
  else FloatText.plain.render f bits ++ mark

/-- A character between single quotes. What is not printable ASCII is written by its code unit. -/
def charLiteral (value : Int) : String :=
  if value = 0x27 then "'\\''"
  else if value = 0x5c then "'\\\\'"
  else if 0x20 ≤ value ∧ value < 0x7f then "'" ++ String.singleton (Char.ofNat value.toNat) ++ "'"
  else "'" ++ unitEscape (value % 0x10000).toNat ++ "'"

def literal (value : Int) (type : Ty) : String :=
  match type.resolved with
  | .boolean => if value = 0 then "false" else "true"
  | .char => charLiteral value
  | .long => toString value ++ "L"
  | .float => floatLiteral .single "Float" "f" (value % 0x100000000).toNat
  | .double => floatLiteral .double "Double" "" (value % 0x10000000000000000).toNat
  | .int => toString (signed 32 (value % 0x100000000).toNat)
  | .object _ | .array _ => if value = 0 then "null" else toString value
  | _ => toString value

def escapeChar (c : Char) : List Char :=
  match c with
  | '"' => ['\\', '"']
  | '\\' => ['\\', '\\']
  | '\n' => ['\\', 'n']
  | '\r' => ['\\', 'r']
  | '\t' => ['\\', 't']
  | c => if c.toNat < 0x20 ∨ c.toNat = 0x7f then (unitEscape c.toNat).toList else [c]

def stringLiteral (s : String) : String := String.ofList ('"' :: s.toList.flatMap escapeChar ++ ['"'])

end JavaLift.Source
