namespace JavaLift.CommandLine

inductive ValueKind where
  | text
  | path
  | count
deriving DecidableEq

/-- A count: digits, perhaps after a plus sign, below the limit of 64 bits. -/
def count? (text : String) : Option Nat :=
  let digits := match text.toList with
    | '+' :: rest => rest
    | cs => cs
  if digits.isEmpty || !digits.all Char.isDigit then none
  else
    let n := digits.foldl (fun n c => 10 * n + (c.toNat - '0'.toNat)) 0
    if n < 0x10000000000000000 then some n else none

/-- The text may be a value of this kind. The path of a file is not empty. -/
def ValueKind.accepts (kind : ValueKind) (text : String) : Bool :=
  match kind with
  | .text => true
  | .path => !text.isEmpty
  | .count => (count? text).isSome

/-- How an option is given: once, any number of times, or once with a value. -/
inductive OptionForm where
  | flag
  | counted
  | valued (kind : ValueKind)
deriving DecidableEq

structure OptionSpec where
  long : String
  short : Option Char
  form : OptionForm
deriving DecidableEq

/-- What stands beside the options of a command: nothing, one path, or another command. -/
inductive Operand where
  | nothing
  | path
  | command
deriving DecidableEq

structure CommandSpec where
  operand : Operand
  options : List OptionSpec

/-- The options and other words found, and the words from the next command on. -/
structure Arguments where
  options : List (String × String)
  words : List String
  rest : List String

namespace Arguments

def empty : Arguments := ⟨[], [], []⟩

def value? (a : Arguments) (long : String) : Option String := a.options.lookup long

def has (a : Arguments) (long : String) : Bool := a.options.any (·.1 == long)

def addFlag? (a : Arguments) (s : OptionSpec) : Option Arguments :=
  if s.form = .flag ∧ a.has s.long then none else some { a with options := a.options ++ [(s.long, "")] }

def addValue? (a : Arguments) (s : OptionSpec) (kind : ValueKind) (value : String) : Option Arguments :=
  if a.has s.long || !kind.accepts value then none else some { a with options := a.options ++ [(s.long, value)] }

/-- The word may be the value of the option before it. -/
def isValue (word : String) : Bool := word == "-" || word.toList.head? != some '-'

def addNext? (a : Arguments) (s : OptionSpec) (kind : ValueKind) : List String → Option (Arguments × List String)
  | [] => none
  | value :: rest => if isValue value then (a.addValue? s kind value).map (·, rest) else none

def splitEquals (cs : List Char) : String × Option String :=
  (String.ofList (cs.takeWhile (· != '=')), match cs.dropWhile (· != '=') with
    | [] => none
    | _ :: value => some (String.ofList value))

def readLong? (specs : List OptionSpec) (a : Arguments) (cs : List Char) (rest : List String) :
    Option (Arguments × List String) := do
  let (name, value) := splitEquals cs
  let s ← specs.find? (·.long == name)
  match s.form, value with
  | .valued kind, some value => (a.addValue? s kind value).map (·, rest)
  | .valued kind, none => a.addNext? s kind rest
  | _, none => (a.addFlag? s).map (·, rest)
  | _, some _ => none

/-- Reads a word of short options. The text after an option with a value is its value. -/
def readShort? (specs : List OptionSpec) (a : Arguments) (rest : List String) :
    List Char → Option (Arguments × List String)
  | [] => some (a, rest)
  | c :: cs => do
    let s ← specs.find? (·.short == some c)
    match s.form, cs with
    | .valued kind, [] => a.addNext? s kind rest
    | .valued kind, '=' :: value => (a.addValue? s kind (String.ofList value)).map (·, rest)
    | .valued kind, value => (a.addValue? s kind (String.ofList value)).map (·, rest)
    | _, cs => readShort? specs (← a.addFlag? s) rest cs

def addWord? (operand : Operand) (a : Arguments) (word : String) : Option Arguments :=
  if operand = .path && a.words.isEmpty && ValueKind.path.accepts word then some { a with words := [word] } else none

/-- Reads words; each step takes at least one of the given number. -/
def readWords? (spec : CommandSpec) : Nat → Arguments → List String → Option Arguments
  | 0, a, _ => some a
  | _, a, [] => some a
  | n + 1, a, word :: rest => match word.toList with
    | ['-', '-'] => rest.foldlM (addWord? spec.operand) a
    | '-' :: '-' :: cs => do
      let (a, rest) ← readLong? spec.options a cs rest
      readWords? spec n a rest
    | '-' :: c :: cs => do
      let (a, rest) ← readShort? spec.options a rest (c :: cs)
      readWords? spec n a rest
    | _ =>
      if spec.operand = .command then some { a with rest := word :: rest }
      else do readWords? spec n (← addWord? spec.operand a word) rest

def read? (spec : CommandSpec) (words : List String) : Option Arguments := readWords? spec words.length .empty words

end Arguments

end JavaLift.CommandLine
