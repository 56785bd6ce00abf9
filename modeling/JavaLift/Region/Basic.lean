import JavaLift.Fault
import JavaLift.Ty.Basic

/-!
Region trees: the code of a method as nested statements over the blocks of its graph. What a tree cannot say
otherwise stays an explicit jump to a labelled block.
-/

namespace JavaLift

/-- When a loop decides to go on: before each round, after it, or never. -/
inductive LoopKind where
  | whileDo | doWhile | endless
deriving DecidableEq

structure CaseHead where
  keys : List Int
  isDefault : Bool
  target : Nat
deriving DecidableEq

structure CatchHead where
  exception : Option Ty
  block : Nat
deriving DecidableEq

/-- A region of code. A `block` stands for its statements without the jump at the end, a `raw` one for all its
instructions. The comparison of a `branch` is that at the end of its header, that of a loop at the end of `cond`;
it counts the other way round where it is negated. Loops are named by their headers. -/
inductive Region where
  | seq (items : List Region)
  | block (b : Nat)
  | branch (header : Nat) (negated : Bool) (thenPart : Region) (elsePart : Option Region)
  | loop (kind : LoopKind) (header : Nat) (cond : Option Nat) (negated : Bool) (body : Region)
  | switch (header : Nat) (cases : List (CaseHead × Region))
  | guarded (body : Region) (catches : List (CatchHead × Region))
  | brk (label : Option Nat)
  | cont (label : Option Nat)
  | goto (target : Nat)
  | raw (b : Nat)
deriving Inhabited

namespace Region

def toList : Region → List Region
  | .seq items => items
  | r => [r]

def ofList : List Region → Region
  | [r] => r
  | items => .seq items

/-- A jump that source text has no word for. -/
def isFallback : Region → Bool
  | .goto _ | .raw _ => true
  | _ => false

mutual

def entryBlock? : Region → Option Nat
  | .seq items => entryOfFirst? items
  | .block b | .raw b => some b
  | .branch header .. | .loop _ header .. | .switch header _ => some header
  | .guarded body _ => entryBlock? body
  | .brk _ | .cont _ | .goto _ => none

def entryOfFirst? : List Region → Option Nat
  | [] => none
  | r :: _ => entryBlock? r

end

mutual

/-- The block that is run last, where nothing but blocks one after the other leads there. -/
def lastBlock? : Region → Option Nat
  | .seq items => lastOfAll? items
  | .block b => some b
  | _ => none

def lastOfAll? : List Region → Option Nat
  | [] => none
  | [r] => lastBlock? r
  | _ :: rest => lastOfAll? rest

end

mutual

def nodes : Region → List Region
  | .seq items => .seq items :: nodesOf items
  | .branch header negated thenPart none => .branch header negated thenPart none :: nodes thenPart
  | .branch header negated thenPart (some elsePart) =>
    .branch header negated thenPart (some elsePart) :: (nodes thenPart ++ nodes elsePart)
  | .loop kind header cond negated body => .loop kind header cond negated body :: nodes body
  | .switch header cases => .switch header cases :: nodesOfCases cases
  | .guarded body catches => .guarded body catches :: (nodes body ++ nodesOfCatches catches)
  | r => [r]

def nodesOf : List Region → List Region
  | [] => []
  | r :: rest => nodes r ++ nodesOf rest

def nodesOfCases : List (CaseHead × Region) → List Region
  | [] => []
  | (_, r) :: rest => nodes r ++ nodesOfCases rest

def nodesOfCatches : List (CatchHead × Region) → List Region
  | [] => []
  | (_, r) :: rest => nodes r ++ nodesOfCatches rest

end

def hasFallback (r : Region) : Bool := r.nodes.any isFallback

mutual

/-- Transforms every region of a tree, those inside it first. -/
def transform {m : Type → Type} [Monad m] (f : Region → m Region) : Region → m Region
  | .seq items => do f (.seq (← transformAll f items))
  | .branch header negated thenPart none => do f (.branch header negated (← transform f thenPart) none)
  | .branch header negated thenPart (some elsePart) => do
    let thenPart ← transform f thenPart
    let elsePart ← transform f elsePart
    f (.branch header negated thenPart (some elsePart))
  | .loop kind header cond negated body => do f (.loop kind header cond negated (← transform f body))
  | .switch header cases => do f (.switch header (← transformCases f cases))
  | .guarded body catches => do
    let body ← transform f body
    let catches ← transformCatches f catches
    f (.guarded body catches)
  | r => f r

def transformAll {m : Type → Type} [Monad m] (f : Region → m Region) : List Region → m (List Region)
  | [] => return []
  | r :: rest => do
    let r ← transform f r
    return r :: (← transformAll f rest)

def transformCases {m : Type → Type} [Monad m] (f : Region → m Region) :
    List (CaseHead × Region) → m (List (CaseHead × Region))
  | [] => return []
  | (h, r) :: rest => do
    let r ← transform f r
    return (h, r) :: (← transformCases f rest)

def transformCatches {m : Type → Type} [Monad m] (f : Region → m Region) :
    List (CatchHead × Region) → m (List (CatchHead × Region))
  | [] => return []
  | (h, r) :: rest => do
    let r ← transform f r
    return (h, r) :: (← transformCatches f rest)

end

end Region

def labelName (offset : Nat) : String := "L_" ++ Text.offset offset

end JavaLift
