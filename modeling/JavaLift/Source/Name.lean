import JavaLift.Ty.Basic

namespace JavaLift.Source

def keywords : List String :=
  ["abstract", "assert", "boolean", "break", "byte", "case", "catch", "char", "class", "const", "continue", "default",
    "do", "double", "else", "enum", "extends", "final", "finally", "float", "for", "goto", "if", "implements",
    "import", "instanceof", "int", "interface", "long", "native", "new", "package", "private", "protected", "public",
    "return", "short", "static", "strictfp", "super", "switch", "synchronized", "this", "throw", "throws",
    "transient", "try", "void", "volatile", "while", "true", "false", "null"]

def isAsciiLetter (c : Char) : Bool := ('a' ≤ c && c ≤ 'z') || ('A' ≤ c && c ≤ 'Z')

/-- The name of a class with a small letter first. A keyword gets an ending. -/
def lowered (name : String) : String :=
  match name.toList with
  | c :: rest =>
    if isAsciiLetter c then
      let word := String.ofList (c.toLower :: rest)
      if keywords.contains word then word ++ "Var" else word
    else "obj"
  | [] => "obj"

def classWord (className : String) : String :=
  let name := Ty.simpleClassName className
  match name with
  | "String" => "str"
  | "StringBuilder" | "StringBuffer" => "sb"
  | "Object" => "obj"
  | "Class" => "cls"
  | "Throwable" => "th"
  | name => if name.endsWith "Exception" || name.endsWith "Error" then "e" else lowered name

def plainWord : Ty → String
  | .boolean => "z"
  | .byte => "b"
  | .short => "s"
  | .char => "c"
  | .int => "i"
  | .long => "j"
  | .float => "f"
  | .double => "d"
  | .object name => classWord name
  | .void | .array _ | .narrow _ | .unknown | .conflict => "obj"

def word : Ty → String
  | .array t => word t ++ "Arr"
  | t => plainWord t.resolved

/-- A name that is not taken: the word, or the word with the least number from two on. -/
def freshName (taken : List String) (word : String) : String :=
  let numbered := (List.range (taken.length + 1)).map fun i => word ++ toString (i + 2)
  ((word :: numbered).find? fun name => !taken.contains name).getD word

/-- The names given to variables, the latest first, all names taken, and those of the caught exceptions that are
no variables, by the blocks of their handlers. -/
structure Namer where
  names : List (Nat × String)
  taken : List String
  caught : List (Nat × String)

namespace Namer

def start : Namer := ⟨[], ["this"], []⟩

def take (n : Namer) (type : Ty) : Namer × String :=
  let name := freshName n.taken (word type)
  ({ n with taken := name :: n.taken }, name)

def assign (n : Namer) (var : Nat) (name : String) : Namer := { n with names := (var, name) :: n.names }

def ensure (n : Namer) (var : Nat) (type : Ty) : Namer :=
  if (n.names.lookup var).isSome then n
  else
    let (n, name) := n.take type
    n.assign var name

def ensureCaught (n : Namer) (block : Nat) (type : Ty) : Namer :=
  if (n.caught.lookup block).isSome then n
  else
    let (n, name) := n.take type
    { n with caught := (block, name) :: n.caught }

def nameOf (n : Namer) (var : Nat) : String := (n.names.lookup var).getD ""

def caughtName (n : Namer) (block : Nat) : String := (n.caught.lookup block).getD ""

def takeAll (n : Namer) : List Ty → Namer × List String
  | [] => (n, [])
  | t :: rest =>
    let (n, name) := n.take t
    let (n, names) := takeAll n rest
    (n, name :: names)

end Namer

end JavaLift.Source
