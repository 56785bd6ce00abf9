import JavaLift.Text.Hex
import JavaLift.Text.Printable

namespace JavaLift.Text

/-- The escape of a character that is not shown as it is; `mark` is the quotation mark to escape. -/
def escapeChar (mark c : Char) : List Char :=
  if c == '\x00' then ['\\', '0']
  else if c == '\t' then ['\\', 't']
  else if c == '\r' then ['\\', 'r']
  else if c == '\n' then ['\\', 'n']
  else if c == '\\' then ['\\', '\\']
  else if c == mark then ['\\', mark]
  else if isHidden c then "\\u\x7b".toList ++ Nat.toDigits 16 c.toNat ++ ['\x7d']
  else [c]

def quoted (s : String) : String := String.ofList ('"' :: s.toList.flatMap (escapeChar '"') ++ ['"'])

def quotedChar (c : Char) : String := String.ofList ('\'' :: escapeChar '\'' c ++ ['\''])

def bracketed (items : List String) : String := "[" ++ ", ".intercalate items ++ "]"

end JavaLift.Text
