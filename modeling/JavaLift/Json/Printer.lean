import JavaLift.Json.Basic

namespace JavaLift.Json

def hexDigit (n : Nat) : Char := Nat.digitChar n

def escapeChar (c : Char) : List Char :=
  match c with
  | '"' => ['\\', '"']
  | '\\' => ['\\', '\\']
  | '\n' => ['\\', 'n']
  | '\r' => ['\\', 'r']
  | '\t' => ['\\', 't']
  | '\x08' => ['\\', 'b']
  | '\x0c' => ['\\', 'f']
  | c =>
    if c.toNat < 0x20 then ['\\', 'u', '0', '0', hexDigit (c.toNat / 16), hexDigit (c.toNat % 16)] else [c]

def quote (s : String) : String :=
  String.ofList ('"' :: s.toList.flatMap escapeChar ++ ['"'])

def digitText (digits : List Nat) : String := String.ofList (digits.map hexDigit)

def numberText (n : JsonNumber) : String :=
  (if n.negative then "-" else "") ++ digitText n.whole
    ++ (if n.fraction.isEmpty then "" else "." ++ digitText n.fraction)
    ++ (match n.exponent with
      | none => ""
      | some e => "e" ++ toString e)

mutual

def compact : Json → String
  | .null => "null"
  | .bool b => if b then "true" else "false"
  | .num n => numberText n
  | .str s => quote s
  | .unpaired => "null"
  | .arr items => "[" ++ compactItems true items ++ "]"
  | .obj members => "\x7b" ++ compactMembers true members ++ "\x7d"

def compactItems (first : Bool) : List Json → String
  | [] => ""
  | v :: rest => (if first then "" else ",") ++ compact v ++ compactItems false rest

def compactMembers (first : Bool) : List (String × Json) → String
  | [] => ""
  | (k, v) :: rest =>
    (if first then "" else ",") ++ quote k ++ ":" ++ compact v ++ compactMembers false rest

end

def breakLine (depth : Nat) : String := "\n" ++ String.ofList (List.replicate (2 * depth) ' ')

mutual

/-- One item or member a line, indented by two blanks; empty containers stay on one line. -/
def pretty (depth : Nat) : Json → String
  | .arr [] => "[]"
  | .arr (v :: rest) =>
    "[" ++ breakLine (depth + 1) ++ pretty (depth + 1) v ++ prettyItems (depth + 1) rest
      ++ breakLine depth ++ "]"
  | .obj [] => "\x7b\x7d"
  | .obj ((k, v) :: rest) =>
    "\x7b" ++ breakLine (depth + 1) ++ quote k ++ ": " ++ pretty (depth + 1) v
      ++ prettyMembers (depth + 1) rest ++ breakLine depth ++ "\x7d"
  | .null => "null"
  | .bool b => if b then "true" else "false"
  | .num n => numberText n
  | .str s => quote s
  | .unpaired => "null"

def prettyItems (depth : Nat) : List Json → String
  | [] => ""
  | v :: rest => "," ++ breakLine depth ++ pretty depth v ++ prettyItems depth rest

def prettyMembers (depth : Nat) : List (String × Json) → String
  | [] => ""
  | (k, v) :: rest => "," ++ breakLine depth ++ quote k ++ ": " ++ pretty depth v ++ prettyMembers depth rest

end

end JavaLift.Json
