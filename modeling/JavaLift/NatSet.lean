/-!
Sets of natural numbers as bits in 64 bit words. Words past the end of the list count as zero, so one set has
many lists of words; `significant` is the one without zeros at its end, and equality and hashing go by it.
-/

namespace JavaLift

structure NatSet where
  words : List (BitVec 64)

namespace NatSet

def empty : NatSet := ⟨[]⟩

instance : EmptyCollection NatSet := ⟨empty⟩
instance : Inhabited NatSet := ⟨empty⟩

/-- The empty set, with the words for `n` numbers ready. -/
def withCapacity (n : Nat) : NatSet := ⟨List.replicate ((n + 63) / 64) 0⟩

def bit (i : Nat) : BitVec 64 := BitVec.twoPow 64 (i % 64)

def widen (ws : List (BitVec 64)) (n : Nat) : List (BitVec 64) := ws ++ List.replicate (n - ws.length) 0

def contains (s : NatSet) (i : Nat) : Bool := (s.words[i / 64]?.getD 0).getLsbD (i % 64)

instance : Membership Nat NatSet := ⟨fun s i => s.contains i = true⟩
instance (s : NatSet) (i : Nat) : Decidable (i ∈ s) := inferInstanceAs (Decidable (s.contains i = true))

/-- The set with `i`, and whether `i` is new in it. -/
def insertNew (s : NatSet) (i : Nat) : NatSet × Bool :=
  let ws := widen s.words (i / 64 + 1)
  (⟨ws.modify (i / 64) (· ||| bit i)⟩, (ws[i / 64]?.getD 0) &&& bit i == 0)

def insert (s : NatSet) (i : Nat) : NatSet := (s.insertNew i).1

def erase (s : NatSet) (i : Nat) : NatSet := ⟨s.words.modify (i / 64) (· &&& ~~~bit i)⟩

def isEmpty (s : NatSet) : Bool := s.words.all (· == 0)

def bitsOf (w : BitVec 64) : List Nat := (List.range 64).filter fun i => w.getLsbD i

def size (s : NatSet) : Nat := s.words.foldr (fun w n => (bitsOf w).length + n) 0

/-- The members of the words from word number `start` on, in increasing order. -/
def membersFrom (start : Nat) : List (BitVec 64) → List Nat
  | [] => []
  | w :: rest => (if w == 0 then [] else (bitsOf w).map (64 * start + ·)) ++ membersFrom (start + 1) rest

def toList (s : NatSet) : List Nat := membersFrom 0 s.words

def ofList (xs : List Nat) : NatSet := xs.foldl insert empty

def intersects (s t : NatSet) : Bool := (s.words.zip t.words).any fun (a, b) => a &&& b != 0

/-- Combines the words of two sets as far as the first one goes. -/
def combine (f : BitVec 64 → BitVec 64 → BitVec 64) : List (BitVec 64) → List (BitVec 64) → List (BitVec 64)
  | a :: as, b :: bs => f a b :: combine f as bs
  | as, _ => as

/-- The union, and whether it has more members than the first set. -/
def unionNew (s t : NatSet) : NatSet × Bool :=
  let ws := widen s.words t.words.length
  (⟨combine (· ||| ·) ws t.words⟩, (ws.zip t.words).any fun (a, b) => a ||| b != a)

def union (s t : NatSet) : NatSet := (s.unionNew t).1

def diff (s t : NatSet) : NatSet := ⟨combine (fun a b => a &&& ~~~b) s.words t.words⟩

def significant (s : NatSet) : List (BitVec 64) := (s.words.reverse.dropWhile (· == 0)).reverse

instance : BEq NatSet := ⟨fun s t => s.significant == t.significant⟩

/-- What a hash of the set is computed from: the number of significant words, and the words. -/
def hashed (s : NatSet) : Nat × List (BitVec 64) := (s.significant.length, s.significant)

end NatSet

end JavaLift
