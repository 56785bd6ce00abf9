import JavaLift.Source.Layout
import JavaLift.Source.Name

namespace JavaLift.Source

/-- The occurrences of a variable: whether the first one assigns it, the scopes around that, and the scopes
around all, the outermost first. -/
structure Occurrences where
  assignedFirst : Bool
  first : List Nat
  shared : List Nat

inductive Declaration where
  | firstAssignment
  | scope (id : Nat)
deriving DecidableEq

def sharedStart : List Nat → List Nat → List Nat
  | a :: as, b :: bs => if a = b then a :: sharedStart as bs else []
  | _, _ => []

namespace Occurrences

def add (o : Occurrences) (scopes : List Nat) : Occurrences := { o with shared := sharedStart o.shared scopes }

def declaration (o : Occurrences) : Declaration :=
  if o.assignedFirst && o.first == o.shared then .firstAssignment else .scope (o.shared.getLast?.getD 0)

end Occurrences

/-- What is known of a layout up to an item: the names, the variables of caught exceptions, the occurrences of all
other variables that are not set at entry, and the open scopes, the outermost first. -/
structure Survey where
  namer : Namer
  caught : List Nat
  occurrences : List (Nat × Occurrences)
  scopes : List Nat

namespace Survey

variable (m : Lifted)

def note (v : Nat) (assigned : Bool) (s : Survey) : Survey :=
  if m.isEntry v || s.caught.contains v then s
  else match s.occurrences.lookup v with
    | some _ => { s with occurrences := s.occurrences.map fun (w, o) => (w, if w = v then o.add s.scopes else o) }
    | none => { s with occurrences := s.occurrences ++ [(v, ⟨assigned, s.scopes, s.scopes⟩)] }

def occur (v : Nat) (assigned : Bool) (s : Survey) : Survey :=
  let s := s.note m v assigned
  { s with namer := s.namer.ensure v (m.typeOf v) }

def event (s : Survey) : Event → Survey
  | .read r => r.var.elim s fun v => s.occur m v false
  | .remark _ => s

def phrase (s : Survey) (p : Phrase) : Survey := p.events.foldl (event m) s

def item (s : Survey) : Item → Survey
  | .marked c => s.phrase m c.phrase
  | .assign _ result value =>
    let s := s.phrase m value
    result.var.elim s fun v => s.occur m v true
  | .handler _ _ (.var v) =>
    { s with caught := v :: s.caught, namer := s.namer.ensure v (m.typeOf v) }
  | .handler _ _ (.block b type) => { s with namer := s.namer.ensureCaught b type }
  | .openScope id => { s with scopes := s.scopes ++ [id] }
  | .closeScope => { s with scopes := s.scopes.dropLast }
  | .line _ | .label .. | .indent | .dedent => s

def entryNames : Namer × List String :=
  let (n, names) := Namer.start.takeAll m.signature.params
  let n := m.receiver.elim n fun v => n.assign v "this"
  ((m.params.zip names).foldl (fun n (v, name) => v.elim n fun v => n.assign v name) n, names)

def of (items : List Item) : Survey := items.foldl (item m) ⟨(entryNames m).1, [], [], []⟩

end Survey

def Survey.declarations (s : Survey) : List (Nat × Declaration) :=
  (s.occurrences.map fun (v, o) => (v, o.declaration)).mergeSort fun a b => a.1 ≤ b.1

def hasDeclarations (ds : List (Nat × Declaration)) (id : Nat) : Bool := ds.any fun d => d.2 == .scope id

end JavaLift.Source
