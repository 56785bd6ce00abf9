import JavaLift.Source.Declare
import JavaLift.Proofs.Lookup
import Mathlib

namespace JavaLift.Source

theorem numbered_injective (word : String) : Function.Injective fun i : Nat => word ++ toString (i + 2) := by
  intro i j h
  have hrepr : (i + 2).repr = (j + 2).repr := String.append_right_inj word |>.mp h
  exact Nat.add_right_cancel (Nat.repr_injective hrepr)

/-- There are more numbers to try than names that are taken. -/
theorem freshName_fresh (taken : List String) (word : String) : freshName taken word ∉ taken := by
  dsimp only [freshName]
  cases hfind : (word :: (List.range (taken.length + 1)).map fun i => word ++ toString (i + 2)).find?
      fun name => !taken.contains name with
  | some name =>
      have hname := List.find?_some hfind
      rw [Option.getD_some]
      simpa using hname
  | none =>
      rw [List.find?_eq_none] at hfind
      have hsubset : (List.range (taken.length + 1)).map (fun i => word ++ toString (i + 2)) ⊆ taken := by
        intro name hname
        simpa using hfind name (List.mem_cons_of_mem _ hname)
      have hnodup := (List.nodup_range (n := taken.length + 1)).map (numbered_injective word)
      have hle := (List.subperm_of_subset hnodup hsubset).length_le
      simp at hle

namespace Namer

def used (n : Namer) : List String := n.names.map (·.2) ++ n.caught.map (·.2)

/-- The names are different and taken, and those given after the head of the method was written are not in it. -/
structure Proper (first : List (Nat × String)) (words : List String) (n : Namer) : Prop where
  nodup : n.used.Nodup
  taken : ∀ s ∈ n.used, s ∈ n.taken
  head : ∀ s ∈ words, s ∈ n.taken
  later : ∀ p ∈ n.names, p ∈ first ∨ p.2 ∉ words
  caught : ∀ p ∈ n.caught, p.2 ∉ words

variable {n : Namer} {first : List (Nat × String)} {words : List String} {v w : Nat} {s : String}

theorem lookup_ensure (n : Namer) (v : Nat) (type : Ty) : ((n.ensure v type).names.lookup v).isSome := by
  unfold ensure
  split_ifs with h
  · exact h
  · simp [take, assign]

theorem lookup_ensure_of (type : Ty) (h : n.names.lookup v = some s) :
    (n.ensure w type).names.lookup v = some s := by
  unfold ensure
  split_ifs with hw
  · exact h
  · have hne : v ≠ w := by
      rintro rfl
      simp [h] at hw
    have hcons : ((v == w) = false) := beq_false_of_ne hne
    simpa [take, assign, List.lookup_cons, hcons] using h

theorem ensure_eq_self (type : Ty) (h : (n.names.lookup v).isSome) : n.ensure v type = n := if_pos h

theorem lookup_ensureCaught (n : Namer) (b : Nat) (type : Ty) : ((n.ensureCaught b type).caught.lookup b).isSome := by
  unfold ensureCaught
  split_ifs with h
  · exact h
  · simp [take]

theorem lookup_ensureCaught_of {b c : Nat} (type : Ty) (h : n.caught.lookup b = some s) :
    (n.ensureCaught c type).caught.lookup b = some s := by
  unfold ensureCaught
  split_ifs with hc
  · exact h
  · have hne : b ≠ c := by
      rintro rfl
      simp [h] at hc
    have hcons : ((b == c) = false) := beq_false_of_ne hne
    simpa [take, List.lookup_cons, hcons] using h

theorem ensureCaught_eq_self {b : Nat} (type : Ty) (h : (n.caught.lookup b).isSome) : n.ensureCaught b type = n :=
  if_pos h

@[simp] theorem caught_ensure (n : Namer) (v : Nat) (type : Ty) : (n.ensure v type).caught = n.caught := by
  unfold ensure
  split_ifs <;> rfl

@[simp] theorem names_ensureCaught (n : Namer) (b : Nat) (type : Ty) :
    (n.ensureCaught b type).names = n.names := by
  unfold ensureCaught
  split_ifs <;> rfl

namespace Proper

theorem ensure (h : Proper first words n) (v : Nat) (type : Ty) : Proper first words (n.ensure v type) := by
  unfold Namer.ensure
  split_ifs
  · exact h
  have hfresh : freshName n.taken (word type) ∉ n.taken := freshName_fresh _ _
  refine ⟨?_, ?_, fun s hs => List.mem_cons_of_mem _ (h.head s hs), ?_, h.caught⟩
  · exact List.nodup_cons.mpr ⟨fun hmem => hfresh (h.taken _ hmem), h.nodup⟩
  · rintro s (_ | ⟨_, hs⟩)
    · exact List.mem_cons_self
    · exact List.mem_cons_of_mem _ (h.taken s hs)
  · rintro p (_ | ⟨_, hp⟩)
    · exact .inr fun hmem => hfresh (h.head _ hmem)
    · exact h.later p hp

theorem ensureCaught (h : Proper first words n) (b : Nat) (type : Ty) :
    Proper first words (n.ensureCaught b type) := by
  unfold Namer.ensureCaught
  split_ifs
  · exact h
  have hfresh : freshName n.taken (word type) ∉ n.taken := freshName_fresh _ _
  have hperm : (n.names.map (·.2) ++ freshName n.taken (word type) :: n.caught.map (·.2)).Perm
      (freshName n.taken (word type) :: n.used) := List.perm_middle
  refine ⟨hperm.nodup_iff.mpr (List.nodup_cons.mpr ⟨fun hmem => hfresh (h.taken _ hmem), h.nodup⟩), ?_,
    fun s hs => List.mem_cons_of_mem _ (h.head s hs), h.later, ?_⟩
  · intro s hs
    rcases List.mem_cons.mp (hperm.mem_iff.mp hs) with rfl | hs
    · exact List.mem_cons_self
    · exact List.mem_cons_of_mem _ (h.taken s hs)
  · rintro p (_ | ⟨_, hp⟩)
    · exact fun hmem => hfresh (h.head _ hmem)
    · exact h.caught p hp

theorem eq_of_name (h : Proper first words n) (hv : n.names.lookup v = some s) (hw : n.names.lookup w = some s) :
    v = w := by
  have hpair := List.inj_on_of_nodup_map (List.nodup_append.mp h.nodup).1 (Assoc.mem_of_lookup hv) (Assoc.mem_of_lookup hw) rfl
  exact congrArg Prod.fst hpair

theorem eq_of_caughtName {b c : Nat} (h : Proper first words n) (hb : n.caught.lookup b = some s)
    (hc : n.caught.lookup c = some s) : b = c := by
  have hpair := List.inj_on_of_nodup_map (List.nodup_append.mp h.nodup).2.1 (Assoc.mem_of_lookup hb) (Assoc.mem_of_lookup hc) rfl
  exact congrArg Prod.fst hpair

theorem name_ne_caughtName {b : Nat} {t : String} (h : Proper first words n) (hv : n.names.lookup v = some s)
    (hb : n.caught.lookup b = some t) : s ≠ t :=
  (List.nodup_append.mp h.nodup).2.2 s (List.mem_map.mpr ⟨(v, s), Assoc.mem_of_lookup hv, rfl⟩) t
    (List.mem_map.mpr ⟨(b, t), Assoc.mem_of_lookup hb, rfl⟩)

end Proper

theorem takeAll_spec (n : Namer) (types : List Ty) :
    (n.takeAll types).1.names = n.names ∧ (n.takeAll types).1.caught = n.caught ∧
      (∀ s ∈ n.taken, s ∈ (n.takeAll types).1.taken) ∧ (∀ s ∈ (n.takeAll types).2, s ∈ (n.takeAll types).1.taken) ∧
      (∀ s ∈ (n.takeAll types).2, s ∉ n.taken) ∧ (n.takeAll types).2.Nodup := by
  induction types generalizing n with
  | nil => simp [takeAll]
  | cons t rest ih =>
      obtain ⟨hnames, hcaught, htaken, hgiven, hfresh, hnodup⟩ := ih (n.take t).1
      have hself : (n.take t).2 ∈ (n.take t).1.taken := List.mem_cons_self
      refine ⟨hnames, hcaught, fun s hs => htaken s (List.mem_cons_of_mem _ hs), ?_, ?_, ?_⟩
      · rintro s (_ | ⟨_, hs⟩)
        · exact htaken _ hself
        · exact hgiven s hs
      · rintro s (_ | ⟨_, hs⟩)
        · exact freshName_fresh _ _
        · exact fun hmem => hfresh s hs (List.mem_cons_of_mem _ hmem)
      · exact List.nodup_cons.mpr ⟨fun hmem => hfresh _ hmem hself, hnodup⟩

end Namer

namespace Lifted

variable (m : Lifted)

def entries : List (Option Nat × String) := (m.receiver, "this") :: m.params.zip (Survey.entryNames m).2

def firstNamer : Namer := (Survey.entryNames m).1

theorem foldl_assign (n : Namer) (es : List (Option Nat × String)) :
    es.foldl (fun n (v, name) => v.elim n fun v => n.assign v name) n =
      { n with names := (es.filterMap fun e => e.1.map (·, e.2)).reverse ++ n.names } := by
  induction es generalizing n with
  | nil => rfl
  | cons e es ih =>
      obtain ⟨v, name⟩ := e
      cases v with
      | none => exact ih n
      | some v =>
          rw [List.foldl_cons]
          refine (ih _).trans ?_
          simp [Namer.assign]

theorem firstNamer_eq :
    m.firstNamer = { (Namer.start.takeAll m.signature.params).1 with
      names := (m.entries.filterMap fun e => e.1.map (·, e.2)).reverse } := by
  obtain ⟨hnames, -⟩ := Namer.takeAll_spec .start m.signature.params
  have hfold := foldl_assign (Namer.start.takeAll m.signature.params).1 m.entries
  rw [hnames, show Namer.start.names = [] from rfl, List.append_nil] at hfold
  exact hfold

theorem mem_firstNamer {v : Nat} {s : String} : (v, s) ∈ m.firstNamer.names ↔ (some v, s) ∈ m.entries := by
  simp [firstNamer_eq, List.mem_filterMap]

theorem entryWords_nodup : ("this" :: (Survey.entryNames m).2).Nodup := by
  obtain ⟨-, -, -, -, hfresh, hnodup⟩ := Namer.takeAll_spec .start m.signature.params
  exact List.nodup_cons.mpr ⟨fun hmem => hfresh _ hmem List.mem_cons_self, hnodup⟩

theorem entries_sublist : (m.entries.map (·.2)).Sublist ("this" :: (Survey.entryNames m).2) := by
  refine List.Sublist.cons_cons _ ?_
  generalize m.params = vs
  generalize (Survey.entryNames m).2 = names
  induction names generalizing vs with
  | nil => simp
  | cons s names ih =>
      cases vs with
      | nil => exact List.nil_sublist _
      | cons v vs => exact (ih vs).cons_cons s

theorem entries_nodup : (m.entries.map (·.2)).Nodup := m.entryWords_nodup.sublist m.entries_sublist

theorem firstNamer_proper :
    m.firstNamer.Proper m.firstNamer.names ("this" :: (Survey.entryNames m).2) := by
  obtain ⟨-, hcaught, htaken, hgiven, -, -⟩ := Namer.takeAll_spec .start m.signature.params
  have hcaught' : m.firstNamer.caught = [] := by rw [firstNamer_eq]; exact hcaught
  have htaken' : m.firstNamer.taken = (Namer.start.takeAll m.signature.params).1.taken := by rw [firstNamer_eq]
  have hwords : ∀ s ∈ "this" :: (Survey.entryNames m).2, s ∈ m.firstNamer.taken := by
    rw [htaken']
    rintro s (_ | ⟨_, hs⟩)
    · exact htaken _ List.mem_cons_self
    · exact hgiven s hs
  have hused : m.firstNamer.used = ((m.entries.filterMap fun e => e.1.map (·, e.2)).map (·.2)).reverse := by
    rw [Namer.used, hcaught', List.map_nil, List.append_nil, firstNamer_eq, List.map_reverse]
  have hsub : ((m.entries.filterMap fun e => e.1.map (·, e.2)).map (·.2)).Sublist (m.entries.map (·.2)) := by
    generalize m.entries = es
    induction es with
    | nil => exact .slnil
    | cons e es ih =>
        obtain ⟨v, s⟩ := e
        cases v with
        | none => exact ih.cons _
        | some v => exact ih.cons_cons _
  refine ⟨?_, ?_, hwords, fun p hp => .inl hp, by simp [hcaught']⟩
  · rw [hused, List.nodup_reverse]
    exact m.entries_nodup.sublist hsub
  · intro s hs
    rw [hused, List.mem_reverse] at hs
    exact hwords s ((hsub.trans m.entries_sublist).subset hs)

end Lifted

end JavaLift.Source
