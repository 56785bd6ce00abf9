import JavaLift.Proofs.Source.Naming
import JavaLift.Source.Declare

namespace JavaLift.Source

theorem sharedStart_left (as bs : List Nat) : sharedStart as bs <+: as := by
  fun_induction sharedStart as bs with
  | case1 as b bs ih => exact (List.prefix_cons_inj b).mpr ih
  | case2 => exact List.nil_prefix
  | case3 => exact List.nil_prefix

theorem sharedStart_right (as bs : List Nat) : sharedStart as bs <+: bs := by
  fun_induction sharedStart as bs with
  | case1 as b bs ih => exact (List.prefix_cons_inj b).mpr ih
  | case2 => exact List.nil_prefix
  | case3 => exact List.nil_prefix

structure Occurrences.Narrows (o o' : Occurrences) : Prop where
  assignedFirst : o'.assignedFirst = o.assignedFirst
  first : o'.first = o.first
  shared : o'.shared <+: o.shared

theorem Occurrences.Narrows.refl (o : Occurrences) : o.Narrows o := ⟨rfl, rfl, List.prefix_rfl⟩

inductive Touch where
  | read (v : Nat)
  | assign (v : Nat)
  | clause (c : Catcher)
  | enter (id : Nat)
  | leave

def Phrase.reads (p : Phrase) : List Nat := p.events.filterMap fun
  | .read r => r.var
  | .remark _ => none

def Item.touches : Item → List Touch
  | .marked c => c.phrase.reads.map .read
  | .assign _ result value => value.reads.map .read ++ result.var.toList.map .assign
  | .handler _ _ c => [.clause c]
  | .openScope id => [.enter id]
  | .closeScope => [.leave]
  | .line _ | .label .. | .indent | .dedent => []

@[simp] theorem touches_line (s : String) : (Item.line s).touches = [] := rfl

@[simp] theorem touches_indent : Item.indent.touches = [] := rfl

@[simp] theorem touches_dedent : Item.dedent.touches = [] := rfl

def touches (items : List Item) : List Touch := items.flatMap Item.touches

@[simp] theorem touches_nil : touches [] = [] := rfl

@[simp] theorem touches_cons (x : Item) (items : List Item) : touches (x :: items) = x.touches ++ touches items := rfl

@[simp] theorem touches_append (xs ys : List Item) : touches (xs ++ ys) = touches xs ++ touches ys :=
  List.flatMap_append

namespace Survey

variable (m : Lifted)

def touch (s : Survey) : Touch → Survey
  | .read v => s.occur m v false
  | .assign v => s.occur m v true
  | .clause (.var v) => { s with caught := v :: s.caught, namer := s.namer.ensure v (m.typeOf v) }
  | .clause (.block b type) => { s with namer := s.namer.ensureCaught b type }
  | .enter id => { s with scopes := s.scopes ++ [id] }
  | .leave => { s with scopes := s.scopes.dropLast }

def touchAll (s : Survey) (ts : List Touch) : Survey := ts.foldl (touch m) s

@[simp] theorem touchAll_nil (s : Survey) : s.touchAll m [] = s := rfl

@[simp] theorem touchAll_cons (s : Survey) (t : Touch) (ts : List Touch) :
    s.touchAll m (t :: ts) = (s.touch m t).touchAll m ts := rfl

@[simp] theorem touchAll_append (s : Survey) (ts us : List Touch) :
    s.touchAll m (ts ++ us) = (s.touchAll m ts).touchAll m us := List.foldl_append

theorem phrase_eq (s : Survey) (p : Phrase) : s.phrase m p = s.touchAll m (p.reads.map .read) := by
  unfold phrase Phrase.reads
  generalize p.events = es
  induction es generalizing s with
  | nil => rfl
  | cons e es ih =>
      cases e with
      | read r =>
          cases hr : r.var with
          | none => simpa [event, hr, List.filterMap_cons] using ih s
          | some v => simpa [event, hr, List.filterMap_cons, touch] using ih (s.occur m v false)
      | remark d => simpa [event, List.filterMap_cons] using ih s

theorem item_eq (s : Survey) (x : Item) : s.item m x = s.touchAll m x.touches := by
  cases x with
  | line _ | label _ _ | indent | dedent | openScope _ | closeScope => rfl
  | marked c => exact s.phrase_eq m c.phrase
  | assign head result value =>
      rw [item, phrase_eq, Item.touches, touchAll_append]
      cases result.var <;> rfl
  | handler _ _ c => cases c <;> rfl

def first : Survey := ⟨m.firstNamer, [], [], []⟩

theorem of_eq (items : List Item) : Survey.of m items = (first m).touchAll m (touches items) := by
  have hfold (s : Survey) : items.foldl (item m) s = s.touchAll m (touches items) := by
    induction items generalizing s with
    | nil => rfl
    | cons x items ih => rw [List.foldl_cons, ih, item_eq, touches_cons, touchAll_append]
  exact hfold _

def Notes (s : Survey) (v : Nat) : Prop := m.isEntry v = false ∧ v ∉ s.caught

variable {m} {s : Survey} {v w : Nat} {o : Occurrences} {a : Bool} {t : Touch} {ts : List Touch}

theorem note_of_not (h : ¬ s.Notes m v) : s.note m v a = s := by
  unfold note
  rw [if_pos]
  by_contra hno
  simp only [Bool.or_eq_true, List.contains_iff_mem, not_or, Bool.not_eq_true] at hno
  exact h hno

@[simp] theorem scopes_note : (s.note m v a).scopes = s.scopes := by
  unfold note
  split_ifs
  · rfl
  · split <;> rfl

@[simp] theorem caught_note : (s.note m v a).caught = s.caught := by
  unfold note
  split_ifs
  · rfl
  · split <;> rfl

@[simp] theorem namer_note : (s.note m v a).namer = s.namer := by
  unfold note
  split_ifs
  · rfl
  · split <;> rfl

@[simp] theorem scopes_occur : (s.occur m v a).scopes = s.scopes := scopes_note

@[simp] theorem caught_occur : (s.occur m v a).caught = s.caught := caught_note

theorem lookup_note (h : s.Notes m v) (w : Nat) : (s.note m v a).occurrences.lookup w =
    if w = v then some ((s.occurrences.lookup v).elim ⟨a, s.scopes, s.scopes⟩ (·.add s.scopes))
    else s.occurrences.lookup w := by
  have hno : ¬ (m.isEntry v || s.caught.contains v) = true := by
    rw [Bool.or_eq_true, List.contains_iff_mem, not_or]
    exact ⟨by rw [h.1]; exact Bool.false_ne_true, h.2⟩
  unfold note
  rw [if_neg hno]
  cases hv : s.occurrences.lookup v with
  | some o =>
      have hmap := Assoc.lookup_map (fun u (o : Occurrences) => if u = v then o.add s.scopes else o) s.occurrences w
      simp only [Option.elim_some]
      refine hmap.trans ?_
      split_ifs with hw
      · rw [hw, hv]
        rfl
      · exact Option.map_id'
  | none =>
      simp only [Option.elim_none, List.lookup_append]
      split_ifs with hw
      · simp [hw, hv]
      · have hbeq : (w == v) = false := beq_false_of_ne hw
        simp [List.lookup_cons, hbeq]

theorem lookup_occur (h : s.occurrences.lookup w = some o) :
    ∃ o', (s.occur m v a).occurrences.lookup w = some o' ∧ o.Narrows o' := by
  by_cases hv : s.Notes m v
  · have hlookup := lookup_note (a := a) hv w
    by_cases hw : w = v
    · subst hw
      rw [if_pos rfl, h] at hlookup
      exact ⟨_, hlookup, rfl, rfl, sharedStart_left _ _⟩
    · rw [if_neg hw, h] at hlookup
      exact ⟨_, hlookup, .refl o⟩
  · refine ⟨o, ?_, .refl o⟩
    rw [occur, note_of_not hv]
    exact h

theorem lookup_touch (h : s.occurrences.lookup w = some o) :
    ∃ o', (s.touch m t).occurrences.lookup w = some o' ∧ o.Narrows o' := by
  cases t with
  | read v | assign v => exact lookup_occur h
  | clause c => cases c <;> exact ⟨o, h, .refl o⟩
  | enter id | leave => exact ⟨o, h, .refl o⟩

theorem lookup_touchAll (ts : List Touch) (h : s.occurrences.lookup w = some o) :
    ∃ o', (s.touchAll m ts).occurrences.lookup w = some o' ∧ o.Narrows o' := by
  induction ts generalizing s o with
  | nil => exact ⟨o, h, .refl o⟩
  | cons t ts ih =>
      obtain ⟨o₁, h₁, hfirst, hplace, hshared⟩ := lookup_touch (m := m) (t := t) h
      obtain ⟨o₂, h₂, hfirst', hplace', hshared'⟩ := ih h₁
      exact ⟨o₂, h₂, hfirst'.trans hfirst, hplace'.trans hplace, hshared'.trans hshared⟩

/-- Where a variable is noted, the scopes around all its occurrences are open. What it does there counts if it is the
first occurrence. -/
theorem noted (h : s.Notes m v) (ts : List Touch) :
    ∃ o, ((s.occur m v a).touchAll m ts).occurrences.lookup v = some o ∧ o.shared <+: s.scopes ∧
      (s.occurrences.lookup v = none → o.assignedFirst = a ∧ o.first = s.scopes) := by
  have hlookup := lookup_note (a := a) h v
  rw [if_pos rfl] at hlookup
  cases hv : s.occurrences.lookup v with
  | some o =>
      rw [hv] at hlookup
      obtain ⟨o', ho', -, -, hshared⟩ := lookup_touchAll (m := m) (s := s.occur m v a) ts hlookup
      exact ⟨o', ho', hshared.trans (sharedStart_right _ _), fun hnone => by cases hnone⟩
  | none =>
      rw [hv] at hlookup
      obtain ⟨o', ho', hfirst, hplace, hshared⟩ := lookup_touchAll (m := m) (s := s.occur m v a) ts hlookup
      exact ⟨o', ho', hshared, fun _ => ⟨hfirst, hplace⟩⟩

theorem lookup_occur_of_ne (h : w ≠ v) : (s.occur m v a).occurrences.lookup w = s.occurrences.lookup w := by
  by_cases hv : s.Notes m v
  · exact (lookup_note (a := a) hv w).trans (if_neg h)
  · rw [occur, note_of_not hv]

end Survey

end JavaLift.Source
