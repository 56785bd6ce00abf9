namespace JavaLift

inductive Candidate where
  | boolean | byte | short | char | int | float | long | double | object | array
deriving DecidableEq

namespace Candidate

def all : List Candidate := [.boolean, .byte, .short, .char, .int, .float, .long, .double, .object, .array]

def index : Candidate → Nat
  | .boolean => 0
  | .byte => 1
  | .short => 2
  | .char => 3
  | .int => 4
  | .float => 5
  | .long => 6
  | .double => 7
  | .object => 8
  | .array => 9

def label : Candidate → String
  | .boolean => "BOOLEAN"
  | .byte => "BYTE"
  | .short => "SHORT"
  | .char => "CHAR"
  | .int => "INT"
  | .float => "FLOAT"
  | .long => "LONG"
  | .double => "DOUBLE"
  | .object => "OBJECT"
  | .array => "ARRAY"

end Candidate

structure Candidates where
  flags : BitVec 10
deriving DecidableEq

namespace Candidates

def empty : Candidates := ⟨0⟩

/-- Flags that stand for no kind are dropped. -/
def ofNat (n : Nat) : Candidates := ⟨BitVec.ofNat 10 n⟩

def toNat (s : Candidates) : Nat := s.flags.toNat

def contains (s : Candidates) (k : Candidate) : Bool := s.flags.getLsbD k.index

def single (k : Candidate) : Candidates := ⟨BitVec.twoPow 10 k.index⟩

def ofList (ks : List Candidate) : Candidates := ⟨ks.foldl (fun s k => s ||| BitVec.twoPow 10 k.index) 0⟩

def union (s t : Candidates) : Candidates := ⟨s.flags ||| t.flags⟩

def inter (s t : Candidates) : Candidates := ⟨s.flags &&& t.flags⟩

def diff (s t : Candidates) : Candidates := ⟨s.flags &&& ~~~t.flags⟩

def isEmpty (s : Candidates) : Bool := s.flags == 0

def isSubset (s t : Candidates) : Bool := s.flags &&& ~~~t.flags == 0

def toList (s : Candidates) : List Candidate := Candidate.all.filter s.contains

def size (s : Candidates) : Nat := s.toList.length

def narrowIntegral : Candidates := ofList [.boolean, .byte, .short, .char, .int]

def integral : Candidates := ofList [.byte, .short, .char, .int]

def wide : Candidates := ofList [.long, .double]

def reference : Candidates := ofList [.object, .array]

/-- The candidates of a literal: the primitives that can hold it, and a reference if it may be null. -/
def ofLiteral (value : Int) (isWide : Bool) : Candidates :=
  if isWide then wide
  else
    let kinds : List (List Candidate) := [
      [.int, .float],
      if value = 0 ∨ value = 1 then [.boolean] else [],
      if value = 0 then [.object, .array] else [],
      if -0x80 ≤ value ∧ value < 0x80 then [.byte] else [],
      if -0x8000 ≤ value ∧ value < 0x8000 then [.short] else [],
      if 0 ≤ value ∧ value < 0x10000 then [.char] else []]
    ofList kinds.flatten

def render (s : Candidates) : String :=
  "PrimitiveSet(" ++ (if s.isEmpty then "0x0" else " | ".intercalate (s.toList.map Candidate.label)) ++ ")"

end Candidates

end JavaLift
