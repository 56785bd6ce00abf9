import JavaLift.Region.Basic
import Mathlib

/-!
Executing region trees. What the blocks, comparisons and switches of a tree do is left to a machine; the tree decides
in which order they are met. A jump to a block goes on at the node that carries the block. What an action leads to is
found step by step. A condition may be given that, once it fails, fails for good; then only the executions count that
keep it to their end.
-/

namespace JavaLift

namespace Region

mutual

/-- The blocks whose statements stand in a tree, in the order of the text. -/
def carriers : Region → List Nat
  | .seq items => carriersOf items
  | .block b | .raw b => [b]
  | .branch header _ thenPart none => header :: carriers thenPart
  | .branch header _ thenPart (some elsePart) => header :: (carriers thenPart ++ carriers elsePart)
  | .loop .whileDo header _ _ body => header :: carriers body
  | .loop .doWhile _ _ _ body | .loop .endless _ _ _ body => carriers body
  | .switch header cases => header :: carriersOfCases cases
  | .guarded body catches => carriers body ++ carriersOfCatches catches
  | .brk _ | .cont _ | .goto _ => []

def carriersOf : List Region → List Nat
  | [] => []
  | r :: rest => carriers r ++ carriersOf rest

def carriersOfCases : List (CaseHead × Region) → List Nat
  | [] => []
  | (_, r) :: rest => carriers r ++ carriersOfCases rest

def carriersOfCatches : List (CatchHead × Region) → List Nat
  | [] => []
  | (_, r) :: rest => carriers r ++ carriersOfCatches rest

end

def skips (entry : Option Nat) (r : Region) : Bool := entry.any fun t => !r.carriers.contains t

/-- Execution begins at the header, because it comes from outside or goes on there. -/
def begins (entry : Option Nat) (header : Nat) : Bool := entry.all (· == header)

variable {entry : Option Nat} {header : Nat} {r : Region} {cs : List Nat}

theorem eq_none_of_nowhere (h : ∀ t ∈ entry, t ∈ ([] : List Nat)) : entry = none :=
  Option.eq_none_iff_forall_not_mem.mpr fun t ht => List.not_mem_nil (h t ht)

theorem mem_of_not_begins (h : ¬ begins entry header = true) (hentry : ∀ t ∈ entry, t ∈ header :: cs) :
    ∀ t ∈ entry, t ∈ cs := by
  intro t ht
  obtain rfl : entry = some t := ht
  exact (List.mem_cons.mp (hentry t rfl)).resolve_left fun he => h (by simp [begins, he])

theorem mem_of_not_skips (h : ¬ skips entry r = true) : ∀ t ∈ entry, t ∈ carriers r := by
  intro t ht
  obtain rfl : entry = some t := ht
  simpa [skips] using h

theorem mem_of_skips (h : skips entry r = true) (hentry : ∀ t ∈ entry, t ∈ carriers r ++ cs) :
    ∀ t ∈ entry, t ∈ cs := by
  intro t ht
  obtain rfl : entry = some t := ht
  refine (List.mem_append.mp (hentry t rfl)).resolve_left fun hr => ?_
  simp [skips, hr] at h

end Region

/-- How the execution of a region ends early. `stuck` is the end where something that a region needs is missing,
`spent` the one where no more rounds are allowed. -/
inductive Exit where
  | brk (label : Option Nat)
  | cont (label : Option Nat)
  | jump (target : Nat)
  | left | thrown | stuck | spent
deriving DecidableEq

/-- What a loop makes of an exit of its body: another round or none, or an exit further out. -/
def Exit.turn (header : Nat) : Exit → Except Exit Bool
  | .cont none => .ok true
  | .brk none => .ok false
  | .cont (some l) => if l = header then .ok true else .error (.cont (some l))
  | .brk (some l) => if l = header then .ok false else .error (.brk (some l))
  | e => .error e

abbrev Act (σ : Type) := ExceptT Exit (StateM σ)

namespace Act

variable {σ α : Type}

def on (a : Act σ α) (s : σ) : Except Exit α × σ := Id.run (StateT.run (ExceptT.run a) s)

def turn (header : Nat) (body : Act σ Unit) : Act σ Bool :=
  tryCatch (do body; return true) fun e => ExceptT.mk (pure (e.turn header))

def cases (body : Act σ Unit) : Act σ Unit := tryCatch body fun e => if e = .brk none then pure () else throw e

def guarded (body handler : Act σ Unit) : Act σ Unit := tryCatch body fun e => if e = .thrown then handler else throw e

end Act

/-- What region trees run on. `visit` runs the statements of a block, `test` is the comparison at the end of one,
`round` that of a loop. `select` gives the case that a switch enters, `handler` the handler that catches what was
thrown. `leap` is the jump at the end of a raw block, and `land` tells whether a jump finds its target. -/
structure Machine (σ : Type) where
  visit : Nat → Act σ Unit
  test : Nat → Bool → Act σ Bool
  round : Option Nat → Bool → Act σ Bool
  select : Nat → List CaseHead → Act σ (Option Nat)
  handler : List CatchHead → Act σ (Option Nat)
  leap : Nat → Act σ Unit
  land : Nat → Act σ Bool

namespace Machine

open Region

variable {σ : Type} (M : Machine σ)

mutual

/-- Executes a region from its start, or from the block `entry` that it carries. A loop begins its later rounds by
`again`. -/
def exec (again : Region → Act σ Unit) (entry : Option Nat) : Region → Act σ Unit
  | .seq items => execAll again entry items
  | .block b => M.visit b
  | .raw b => do
    M.visit b
    M.leap b
  | .branch header negated thenPart none =>
    if begins entry header then do
      M.visit header
      if ← M.test header negated then exec again none thenPart
    else exec again entry thenPart
  | .branch header negated thenPart (some elsePart) =>
    if begins entry header then do
      M.visit header
      if ← M.test header negated then exec again none thenPart else exec again none elsePart
    else if skips entry thenPart then exec again entry elsePart
    else exec again entry thenPart
  | .loop .whileDo header cond negated body =>
    if begins entry header then do
      M.visit header
      if ← M.round cond negated then
        if ← Act.turn header (exec again none body) then again (.loop .whileDo header cond negated body)
    else do
      if ← Act.turn header (exec again entry body) then again (.loop .whileDo header cond negated body)
  | .loop .doWhile header cond negated body => do
    if ← Act.turn header (exec again entry body) then
      if ← M.round cond negated then again (.loop .doWhile header cond negated body)
  | .loop .endless header cond negated body => do
    if ← Act.turn header (exec again entry body) then again (.loop .endless header cond negated body)
  | .switch header cases =>
    if begins entry header then do
      M.visit header
      match ← M.select header (cases.map (·.1)) with
      | some i => Act.cases (execCases again i none cases)
      | none => pure ()
    else Act.cases (execCases again 0 entry cases)
  | .guarded body catches =>
    if skips entry body then execCatch again 0 entry catches
    else Act.guarded (exec again entry body) do
      match ← M.handler (catches.map (·.1)) with
      | some i => execCatch again i none catches
      | none => throw .thrown
  | .brk label => throw (.brk label)
  | .cont label => throw (.cont label)
  | .goto target => throw (.jump target)

def execAll (again : Region → Act σ Unit) (entry : Option Nat) : List Region → Act σ Unit
  | [] => pure ()
  | r :: rest =>
    if skips entry r then execAll again entry rest
    else do
      exec again entry r
      execAll again none rest

def execCases (again : Region → Act σ Unit) (n : Nat) (entry : Option Nat) : List (CaseHead × Region) → Act σ Unit
  | [] => pure ()
  | (_, r) :: rest => match n with
    | n + 1 => execCases again n entry rest
    | 0 =>
      if skips entry r then execCases again 0 entry rest
      else do
        exec again entry r
        execCases again 0 none rest

def execCatch (again : Region → Act σ Unit) (n : Nat) (entry : Option Nat) : List (CatchHead × Region) → Act σ Unit
  | [] => pure ()
  | (_, r) :: rest => match n with
    | n + 1 => execCatch again n entry rest
    | 0 => if skips entry r then execCatch again 0 entry rest else exec again entry r

end

def rounds : Nat → Region → Act σ Unit
  | 0, _ => throw .spent
  | n + 1, r => M.exec (rounds n) none r

def within (n : Nat) (entry : Option Nat) (r : Region) : Act σ Unit := M.exec (M.rounds n) entry r

def runFrom (root : Region) (n : Nat) : Nat → Option Nat → Act σ Unit
  | 0, _ => throw .spent
  | jumps + 1, entry => tryCatch (M.within n entry root) fun
    | .jump target => do
      if ← M.land target then runFrom root n jumps (some target) else throw .stuck
    | e => throw e

def run (root : Region) (n : Nat) : Act σ Unit := M.runFrom root n n none

end Machine

namespace Act

variable {σ α β : Type}

theorem ext {a a' : Act σ α} (h : ∀ s, a.on s = a'.on s) : a = a' := funext h

def resume (f : α → Act σ β) : Except Exit α → Act σ β
  | .ok x => f x
  | .error e => throw e

def rescue (f : Exit → Act σ α) : Except Exit α → Act σ α
  | .ok x => pure x
  | .error e => f e

theorem on_bind (a : Act σ α) (f : α → Act σ β) (s : σ) : (a >>= f).on s = (resume f (a.on s).1).on (a.on s).2 := by
  unfold on ExceptT.run StateT.run Id.run
  simp only [bind, ExceptT.bind, ExceptT.mk, StateT.bind]
  cases a s with
  | mk result t => cases result <;> rfl

theorem on_tryCatch (a : Act σ α) (f : Exit → Act σ α) (s : σ) :
    (tryCatch a f).on s = (rescue f (a.on s).1).on (a.on s).2 := by
  unfold on ExceptT.run StateT.run Id.run
  simp only [tryCatch, tryCatchThe, MonadExceptOf.tryCatch, ExceptT.tryCatch, ExceptT.mk, bind, StateT.bind]
  cases a s with
  | mk result t => cases result <;> rfl

variable {C P P' : σ → Prop}

/-- From a state with the first property the action leads to the second one. If the condition still holds at the end,
it held at the start. -/
def Leads (C P : σ → Prop) (a : Act σ α) (Q : Except Exit α → σ → Prop) : Prop :=
  ∀ s, C (a.on s).2 → C s ∧ (P s → Q (a.on s).1 (a.on s).2)

namespace Leads

variable {Q Q' : Except Exit α → σ → Prop}

theorem pure {x : α} (h : ∀ s, P s → Q (.ok x) s) : Leads C P (Pure.pure x) Q := fun s hs => ⟨hs, h s⟩

theorem throw {e : Exit} (h : ∀ s, P s → Q (.error e) s) : Leads C P (MonadExcept.throw e) Q := fun s hs => ⟨hs, h s⟩

theorem imp {a : Act σ α} (h : Leads C P a Q) (hP : ∀ s, P' s → P s) (hQ : ∀ r s, Q r s → Q' r s) : Leads C P' a Q' :=
  fun s hs => ⟨(h s hs).1, fun hp => hQ _ _ ((h s hs).2 (hP s hp))⟩

/-- One action after the other, where the second one depends on how the first one has ended. -/
theorem after {a : Act σ α} {b : Act σ β} {k : Except Exit α → Act σ β} {R : Except Exit α → σ → Prop}
    {Q : Except Exit β → σ → Prop} (hb : ∀ s, b.on s = (k (a.on s).1).on (a.on s).2) (ha : Leads C P a R)
    (hk : ∀ r, Leads C (R r) (k r) Q) : Leads C P b Q := by
  intro s hs
  rw [hb] at hs ⊢
  obtain ⟨ht, hQ⟩ := hk _ _ hs
  obtain ⟨hc, hR⟩ := ha s ht
  exact ⟨hc, fun hp => hQ (hR hp)⟩

theorem bind {a : Act σ α} {f : α → Act σ β} {R : Except Exit α → σ → Prop} {Q : Except Exit β → σ → Prop}
    (ha : Leads C P a R) (hf : ∀ x, Leads C (R (.ok x)) (f x) Q) (he : ∀ e s, R (.error e) s → Q (.error e) s) :
    Leads C P (a >>= f) Q := by
  refine .after (on_bind a f) ha fun r => ?_
  cases r with
  | ok x => exact hf x
  | error e => exact .throw (he e)

theorem tryCatch {a : Act σ α} {f : Exit → Act σ α} {R : Except Exit α → σ → Prop} (ha : Leads C P a R)
    (hok : ∀ x s, R (.ok x) s → Q (.ok x) s) (hf : ∀ e, Leads C (R (.error e)) (f e) Q) :
    Leads C P (MonadExcept.tryCatch a f) Q := by
  refine .after (on_tryCatch a f) ha fun r => ?_
  cases r with
  | ok x => exact .pure (hok x)
  | error e => exact hf e

theorem ite {c : Prop} [Decidable c] {a a' : Act σ α} (h : c → Leads C P a Q) (h' : ¬ c → Leads C P a' Q) :
    Leads C P (if c then a else a') Q := by
  split
  · exact h ‹_›
  · exact h' ‹_›

theorem get {f : σ → Act σ α} (h : ∀ t, Leads C (fun s => s = t ∧ P s) (f t) Q) :
    Leads C P (MonadState.get >>= f) Q := fun s hs => ⟨(h s s hs).1, fun hp => (h s s hs).2 ⟨rfl, hp⟩⟩

theorem modify {u : σ → σ} {Q : Except Exit Unit → σ → Prop} (hC : ∀ s, C (u s) → C s)
    (h : ∀ s, C (u s) → P s → Q (.ok ()) (u s)) : Leads C P (MonadState.modifyGet fun s => ((), u s)) Q :=
  fun s hs => ⟨hC s hs, h s hs⟩

theorem turn {header : Nat} {body : Act σ Unit} {R : Except Exit Unit → σ → Prop} {Q : Except Exit Bool → σ → Prop}
    (hbody : Leads C P body R) (hok : ∀ s, R (.ok ()) s → Q (.ok true) s)
    (he : ∀ e s, R (.error e) s → Q (e.turn header) s) : Leads C P (Act.turn header body) Q := by
  refine .tryCatch (R := fun r s => match r with
    | .ok x => Q (.ok x) s
    | .error e => R (.error e) s) (.bind hbody (fun _ => .pure hok) fun _ _ h => h) (fun _ _ h => h) fun e s hs => ?_
  exact ⟨hs, he e s⟩

theorem cases {body : Act σ Unit} {R Q : Except Exit Unit → σ → Prop} (hbody : Leads C P body R)
    (hok : ∀ s, R (.ok ()) s → Q (.ok ()) s) (hbrk : ∀ s, R (.error (.brk none)) s → Q (.ok ()) s)
    (he : ∀ e s, e ≠ .brk none → R (.error e) s → Q (.error e) s) : Leads C P (Act.cases body) Q := by
  refine .tryCatch hbody (fun _ => hok) fun e => .ite (fun h => .pure ?_) fun h => .throw fun s => he e s h
  exact h ▸ hbrk

end Leads

end Act

end JavaLift
