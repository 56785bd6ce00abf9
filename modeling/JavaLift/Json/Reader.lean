import JavaLift.Json.Basic

namespace JavaLift.Json

inductive Token where
  | openArray | closeArray | openObject | closeObject | comma | colon
  | value (v : Json)

/-- One piece of a string: a character, or a code unit given by its four hexadecimal digits. -/
abbrev Piece := Char ⊕ Nat

/-- The text of a string. Two surrogate halves in a row are one character; a lone half has no text. -/
def textOfPieces : List Piece → Option (List Char)
  | [] => some []
  | .inl c :: rest => (textOfPieces rest).map (c :: ·)
  | .inr hi :: .inr lo :: rest =>
    if 0xD800 ≤ hi && hi ≤ 0xDBFF then
      if 0xDC00 ≤ lo && lo ≤ 0xDFFF then
        (textOfPieces rest).map (Char.ofNat (0x10000 + (hi - 0xD800) * 0x400 + (lo - 0xDC00)) :: ·)
      else none
    else if 0xDC00 ≤ hi && hi ≤ 0xDFFF then none
    else (textOfPieces (.inr lo :: rest)).map (Char.ofNat hi :: ·)
  | .inr u :: rest =>
    if 0xD800 ≤ u && u ≤ 0xDFFF then none else (textOfPieces rest).map (Char.ofNat u :: ·)

/-- What the lexer is in the middle of. The collected symbols are in reverse order. -/
inductive Mode where
  | idle
  | text (seen : List Piece)
  | escape (seen : List Piece)
  | code (seen : List Piece) (digits : List Nat)
  | number (seen : List Char)
  | word (seen : List Char)

def hexDigit? (c : Char) : Option Nat :=
  if '0' ≤ c && c ≤ '9' then some (c.toNat - '0'.toNat)
  else if 'a' ≤ c && c ≤ 'f' then some (c.toNat - 'a'.toNat + 10)
  else if 'A' ≤ c && c ≤ 'F' then some (c.toNat - 'A'.toNat + 10)
  else none

def escape? : Char → Option Char
  | '"' => some '"'
  | '\\' => some '\\'
  | '/' => some '/'
  | 'b' => some '\x08'
  | 'f' => some '\x0c'
  | 'n' => some '\n'
  | 'r' => some '\r'
  | 't' => some '\t'
  | _ => none

def isBlank (c : Char) : Bool := c == ' ' || c == '\t' || c == '\n' || c == '\r'

def isNumeral (c : Char) : Bool := c.isDigit || c == '-' || c == '+' || c == '.' || c == 'e' || c == 'E'

def digitsOf (cs : List Char) : List Nat := cs.map fun c => c.toNat - '0'.toNat

def exponent? (cs : List Char) : Option Int :=
  let (negative, digits) := match cs with
    | '-' :: rest => (true, rest)
    | '+' :: rest => (false, rest)
    | rest => (false, rest)
  if digits.isEmpty || !digits.all Char.isDigit then none
  else
    let n := JsonNumber.ofDigits (digitsOf digits)
    some (if negative then -(n : Int) else n)

/-- The number grammar: no leading zero, and a digit on either side of the point. -/
def number? (cs : List Char) : Option JsonNumber := do
  let (negative, cs) := match cs with
    | '-' :: rest => (true, rest)
    | rest => (false, rest)
  let whole := cs.takeWhile Char.isDigit
  let rest := cs.dropWhile Char.isDigit
  guard (!whole.isEmpty && (whole.length == 1 || whole.head? != some '0'))
  let (fraction, rest) ← match rest with
    | '.' :: more =>
      let fraction := more.takeWhile Char.isDigit
      if fraction.isEmpty then none else some (fraction, more.dropWhile Char.isDigit)
    | rest => some ([], rest)
  let exponent ← match rest with
    | [] => some none
    | c :: more => if c == 'e' || c == 'E' then (exponent? more).map some else none
  return ⟨negative, digitsOf whole, digitsOf fraction, exponent⟩

def word? (cs : List Char) : Option Json :=
  if cs = ['t', 'r', 'u', 'e'] then some (.bool true)
  else if cs = ['f', 'a', 'l', 's', 'e'] then some (.bool false)
  else if cs = ['n', 'u', 'l', 'l'] then some .null
  else none

def idle? (c : Char) : Option (List Token × Mode) :=
  if isBlank c then some ([], .idle)
  else if isNumeral c then some ([], .number [c])
  else if c.isAlpha then some ([], .word [c])
  else match c with
    | '[' => some ([.openArray], .idle)
    | ']' => some ([.closeArray], .idle)
    | '\x7b' => some ([.openObject], .idle)
    | '\x7d' => some ([.closeObject], .idle)
    | ',' => some ([.comma], .idle)
    | ':' => some ([.colon], .idle)
    | '"' => some ([], .text [])
    | _ => none

def lexStep : Mode → Char → Option (List Token × Mode)
  | .idle, c => idle? c
  | .text seen, c =>
    if c == '"' then
      let v := match textOfPieces seen.reverse with
        | some cs => Json.str (String.ofList cs)
        | none => .unpaired
      some ([.value v], .idle)
    else if c == '\\' then some ([], .escape seen)
    else if c.toNat < 0x20 then none
    else some ([], .text (.inl c :: seen))
  | .escape seen, c =>
    if c == 'u' then some ([], .code seen [])
    else (escape? c).map fun e => ([], .text (.inl e :: seen))
  | .code seen digits, c => (hexDigit? c).map fun d =>
      match digits with
      | [z, y, x] => ([], .text (.inr (((x * 16 + y) * 16 + z) * 16 + d) :: seen))
      | _ => ([], .code seen (d :: digits))
  | .number seen, c =>
    if isNumeral c then some ([], .number (c :: seen))
    else do
      let n ← number? seen.reverse
      let (tokens, mode) ← idle? c
      return (.value (.num n) :: tokens, mode)
  | .word seen, c =>
    if c.isAlpha then some ([], .word (c :: seen))
    else do
      let w ← word? seen.reverse
      let (tokens, mode) ← idle? c
      return (.value w :: tokens, mode)

def lexEnd : Mode → Option (List Token)
  | .idle => some []
  | .number seen => (number? seen.reverse).map fun n => [.value (.num n)]
  | .word seen => (word? seen.reverse).map fun w => [.value w]
  | _ => none

def lexRev (cs : List Char) : Option (List Token) := do
  let (tokens, mode) ← cs.foldlM (fun (tokens, mode) c => do
    let (new, mode) ← lexStep mode c
    return (new.reverse ++ tokens, mode)) (([] : List Token), Mode.idle)
  let last ← lexEnd mode
  return last.reverse ++ tokens

/-- An open container with what it holds so far, last one first. -/
inductive Frame where
  | array (items : List Json)
  | object (members : List (String × Json)) (key : String)

inductive Expect where
  | value
  | valueOrClose
  | keyOrClose (members : List (String × Json))
  | key (members : List (String × Json))
  | colon (members : List (String × Json)) (key : String)
  | commaOrClose (last : Json)

structure Machine where
  stack : List Frame
  expect : Expect

def parseStep (m : Machine) (t : Token) : Option Machine :=
  match m.expect, t with
  | .value, .value v | .valueOrClose, .value v => some ⟨m.stack, .commaOrClose v⟩
  | .value, .openArray | .valueOrClose, .openArray => some ⟨.array [] :: m.stack, .valueOrClose⟩
  | .value, .openObject | .valueOrClose, .openObject => some ⟨m.stack, .keyOrClose []⟩
  | .valueOrClose, .closeArray => match m.stack with
    | .array [] :: stack => some ⟨stack, .commaOrClose (.arr [])⟩
    | _ => none
  | .keyOrClose _, .closeObject => some ⟨m.stack, .commaOrClose (.obj [])⟩
  | .keyOrClose members, .value (.str k) | .key members, .value (.str k) => some ⟨m.stack, .colon members k⟩
  | .colon members k, .colon => some ⟨.object members k :: m.stack, .value⟩
  | .commaOrClose v, .comma => match m.stack with
    | .array items :: stack => some ⟨.array (v :: items) :: stack, .value⟩
    | .object members k :: stack => some ⟨stack, .key ((k, v) :: members)⟩
    | [] => none
  | .commaOrClose v, .closeArray => match m.stack with
    | .array items :: stack => some ⟨stack, .commaOrClose (.arr (v :: items).reverse)⟩
    | _ => none
  | .commaOrClose v, .closeObject => match m.stack with
    | .object members k :: stack => some ⟨stack, .commaOrClose (.obj ((k, v) :: members).reverse)⟩
    | _ => none
  | _, _ => none

def parse? (text : String) : Option Json := do
  let tokens ← lexRev text.toList
  let m ← tokens.reverse.foldlM parseStep ⟨[], .value⟩
  match m.stack, m.expect with
  | [], .commaOrClose v => some v
  | _, _ => none

end JavaLift.Json
