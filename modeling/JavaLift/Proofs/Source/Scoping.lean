import JavaLift.Proofs.Source.Signs
import JavaLift.Proofs.Source.Passes

namespace JavaLift.Source

/-- What is known in the middle of a text: the variables declared so far, the names bound for the block that opens next,
and those declared in the open blocks, the innermost first. -/
structure Scopes where
  declared : List Nat
  bound : List Identifier
  blocks : List (List Identifier)

namespace Scopes

variable {s : Scopes} {i j : Identifier} {ks : List (List Identifier)} {xs ys : List Sign}

def visible (s : Scopes) : List Identifier := s.bound ++ s.blocks.flatten

def put (i : Identifier) : List (List Identifier) → List (List Identifier)
  | [] => [[i]]
  | k :: ks => (i :: k) :: ks

@[simp] theorem flatten_put (i : Identifier) (ks : List (List Identifier)) : (put i ks).flatten = i :: ks.flatten := by
  cases ks <;> rfl

def after (s : Scopes) : Sign → Scopes
  | .text _ | .occurs .. => s
  | .opens => ⟨s.declared, [], s.bound :: s.blocks⟩
  | .closes => ⟨s.declared, s.bound, s.blocks.tail⟩
  | .declares i => ⟨i.var.toList ++ s.declared, s.bound, put i s.blocks⟩
  | .binds i => ⟨i.var.toList ++ s.declared, i :: s.bound, s.blocks⟩

def afterAll (s : Scopes) (xs : List Sign) : Scopes := xs.foldl after s

/-- What may come next. -/
def Admits (s : Scopes) : Sign → Prop
  | .text _ | .opens | .closes => True
  | .occurs v name => ⟨some v, name⟩ ∈ s.blocks.flatten
  | .declares i | .binds i => (∀ v ∈ i.var, v ∉ s.declared) ∧ ∀ j ∈ s.visible, j.name ≠ i.name

instance (s : Scopes) : DecidablePred s.Admits
  | .text _ | .opens | .closes => isTrue trivial
  | .occurs _ _ => inferInstanceAs (Decidable (_ ∈ s.blocks.flatten))
  | .declares i | .binds i =>
    inferInstanceAs (Decidable ((∀ v ∈ i.var, v ∉ s.declared) ∧ ∀ j ∈ s.visible, j.name ≠ i.name))

def Scoped : Scopes → List Sign → Prop
  | _, [] => True
  | s, x :: xs => s.Admits x ∧ Scoped (s.after x) xs

instance decidableScoped : (s : Scopes) → (xs : List Sign) → Decidable (Scoped s xs)
  | _, [] => isTrue trivial
  | s, x :: xs =>
    have := decidableScoped (s.after x) xs
    inferInstanceAs (Decidable (s.Admits x ∧ Scoped (s.after x) xs))

variable {x : Sign} {t : String}

@[simp] theorem scoped_nil (s : Scopes) : s.Scoped [] := trivial

@[simp] theorem scoped_cons : s.Scoped (x :: xs) ↔ s.Admits x ∧ (s.after x).Scoped xs := Iff.rfl

@[simp] theorem afterAll_nil (s : Scopes) : s.afterAll [] = s := rfl

@[simp] theorem afterAll_cons (s : Scopes) (x : Sign) (xs : List Sign) : s.afterAll (x :: xs) = (s.after x).afterAll xs :=
  rfl

@[simp] theorem admits_text (s : Scopes) (t : String) : s.Admits (.text t) := trivial

@[simp] theorem admits_opens (s : Scopes) : s.Admits .opens := trivial

@[simp] theorem admits_closes (s : Scopes) : s.Admits .closes := trivial

@[simp] theorem after_text (s : Scopes) (t : String) : s.after (.text t) = s := rfl

@[simp] theorem after_occurs (s : Scopes) (v : Nat) (name : String) : s.after (.occurs v name) = s := rfl

@[simp] theorem scoped_append : s.Scoped (xs ++ ys) ↔ s.Scoped xs ∧ (s.afterAll xs).Scoped ys := by
  induction xs generalizing s with
  | nil => simp
  | cons x xs ih => simp [ih, and_assoc]

@[simp] theorem afterAll_append (s : Scopes) (xs ys : List Sign) : s.afterAll (xs ++ ys) = (s.afterAll xs).afterAll ys :=
  List.foldl_append

theorem afterAll_eq_self (h : ∀ x ∈ xs, (∃ t, x = .text t) ∨ ∃ v name, x = .occurs v name) : s.afterAll xs = s := by
  induction xs with
  | nil => rfl
  | cons x xs ih =>
      rw [List.forall_mem_cons] at h
      have hx : s.after x = s := by
        obtain ⟨t, rfl⟩ | ⟨v, name, rfl⟩ := h.1 <;> rfl
      change (s.after x).afterAll xs = s
      rw [hx, ih h.2]

theorem scoped_of_forall (h : ∀ x ∈ xs,
    (∃ t, x = .text t) ∨ ∃ v name, x = .occurs v name ∧ ⟨some v, name⟩ ∈ s.blocks.flatten) : s.Scoped xs := by
  induction xs with
  | nil => trivial
  | cons x xs ih =>
      rw [List.forall_mem_cons] at h
      obtain ⟨t, rfl⟩ | ⟨v, name, rfl, hv⟩ := h.1
      · exact ⟨trivial, ih h.2⟩
      · exact ⟨hv, ih h.2⟩

end Scopes

/-- What a handler calls the exception: a variable, or the one name of its block. -/
inductive CatchKey where
  | var (v : Nat)
  | block (b : Nat)
deriving DecidableEq

def Catcher.key : Catcher → CatchKey
  | .var v => .var v
  | .block b _ => .block b

def caughtVars (ts : List Touch) : List Nat := ts.filterMap fun
  | .clause (.var v) => some v
  | _ => none

def readVars (ts : List Touch) : List Nat := ts.filterMap fun
  | .read v => some v
  | _ => none

def assignedVars (ts : List Touch) : List Nat := ts.filterMap fun
  | .assign v => some v
  | _ => none

@[simp] theorem caughtVars_append (ts us : List Touch) : caughtVars (ts ++ us) = caughtVars ts ++ caughtVars us :=
  List.filterMap_append

section

variable {v : Nat} {ts : List Touch}

theorem mem_caughtVars : v ∈ caughtVars ts ↔ .clause (.var v) ∈ ts := by
  rw [caughtVars, List.mem_filterMap]
  constructor
  · rintro ⟨t, ht, hv⟩
    split at hv <;> cases hv
    exact ht
  · exact fun h => ⟨_, h, rfl⟩

theorem mem_readVars (h : .read v ∈ ts) : v ∈ readVars ts := List.mem_filterMap.mpr ⟨_, h, rfl⟩

theorem mem_assignedVars (h : v ∈ assignedVars ts) : .assign v ∈ ts := by
  obtain ⟨t, ht, hv⟩ := List.mem_filterMap.mp h
  split at hv <;> cases hv
  exact ht

end

/-- Variables that are caught are touched in the blocks of their handlers only, and no handler stands in the block of
another one that calls the exception the same. The handler of the scope that is entered next is known, and those of the
open scopes, the innermost first. -/
def Confined (caught : List Nat) : Option CatchKey → List (Option CatchKey) → List Touch → Prop
  | _, _, [] => True
  | next, inside, .read v :: ts => (v ∈ caught → some (.var v) ∈ inside) ∧ Confined caught next inside ts
  | next, inside, .assign v :: ts => (v ∈ caught → some (.var v) ∈ inside) ∧ Confined caught next inside ts
  | _, inside, .clause c :: ts => some c.key ∉ inside ∧ Confined caught (some c.key) inside ts
  | next, inside, .enter _ :: ts => Confined caught none (next :: inside) ts
  | next, inside, .leave :: ts => Confined caught next inside.tail ts

instance (k : Option CatchKey) (inside : List (Option CatchKey)) : Decidable (k ∈ inside) :=
  decidable_of_iff (∃ j ∈ inside, j = k) exists_eq_right

instance decidableConfined {caught : List Nat} :
    (next : Option CatchKey) → (inside : List (Option CatchKey)) → (ts : List Touch) →
      Decidable (Confined caught next inside ts)
  | _, _, [] => isTrue trivial
  | next, inside, .read v :: ts | next, inside, .assign v :: ts =>
    have : Decidable (Confined caught next inside ts) := decidableConfined next inside ts
    inferInstanceAs (Decidable ((v ∈ caught → some (.var v) ∈ inside) ∧ Confined caught next inside ts))
  | _, inside, .clause c :: ts =>
    have : Decidable (Confined caught (some c.key) inside ts) := decidableConfined (some c.key) inside ts
    inferInstanceAs (Decidable (some c.key ∉ inside ∧ Confined caught (some c.key) inside ts))
  | next, inside, .enter _ :: ts => decidableConfined none (next :: inside) ts
  | next, inside, .leave :: ts => decidableConfined next inside.tail ts

namespace Lifted

variable (m : Lifted)

def touched : List Touch := touches (m.items fun _ => false)

/-- Exceptions stay in their handlers: a variable that one is caught in is caught once, holds no argument, and occurs in
the block of its handler only. Every other variable that is read holds an argument or is assigned. -/
structure Clear : Prop where
  once : (caughtVars m.touched).Nodup
  apart : ∀ v ∈ caughtVars m.touched, m.isEntry v = false
  confined : Confined (caughtVars m.touched) none [] m.touched
  assigned : ∀ v ∈ readVars m.touched, m.isEntry v = true ∨ v ∈ caughtVars m.touched ∨ v ∈ assignedVars m.touched

instance : Decidable m.Clear :=
  decidable_of_iff ((caughtVars m.touched).Nodup ∧ (∀ v ∈ caughtVars m.touched, m.isEntry v = false) ∧
    Confined (caughtVars m.touched) none [] m.touched ∧
    ∀ v ∈ readVars m.touched, m.isEntry v = true ∨ v ∈ caughtVars m.touched ∨ v ∈ assignedVars m.touched)
    ⟨fun ⟨once, apart, confined, assigned⟩ => ⟨once, apart, confined, assigned⟩,
      fun ⟨once, apart, confined, assigned⟩ => ⟨once, apart, confined, assigned⟩⟩

/-- Before the text there is the receiver, which goes by a word of its own. -/
def receiverScope : Scopes :=
  ⟨(m.survey.namer.identifier "this").var.toList, [], [[m.survey.namer.identifier "this"]]⟩

end Lifted

end JavaLift.Source
