import JavaLift.Hierarchy.Basic
import Mathlib

namespace JavaLift.Hierarchy

open Relation

variable {h : Hierarchy} {name a b c n : String} {known names : List String} {i rounds : Nat}

/-- Upwards from a class, in any number of steps to a super class or an interface. Nothing stands above the root. -/
def Reaches (h : Hierarchy) : String → String → Prop := ReflTransGen fun a b => b ∈ h.above a

/-- Being a subtype is a preorder with the root on top, the search upwards ends with all that can be reached, and
common supertypes are found where there are any. -/
structure Lawful (h : Hierarchy) : Prop where
  refl (a : String) : h.isSubtype a a
  trans (a b c : String) : h.isSubtype a b → h.isSubtype b c → h.isSubtype a c
  subtype_iff (a b : String) : h.isSubtype a b ↔ b = Ty.objectClass ∨ h.Reaches a b
  ends (a : String) (rounds : Nat) : h.bound ≤ rounds → h.climb rounds 0 [a] = h.reached a
  reached_iff (a c : String) : c ∈ h.reached a ↔ h.Reaches a c
  common_above (a b c : String) : h.common? a b = some c → h.isSubtype a c ∧ h.isSubtype b c
  none_apart (a b : String) : h.common? a b = none → ∀ c, h.Reaches a c → ¬ h.Reaches b c
  complete_common (a b : String) : h.isComplete a → h.isComplete b → h.common? a b ≠ none

theorem addNew_cons (known : List String) (n : String) (names : List String) :
    addNew known (n :: names) = addNew (if n ∈ known then known else known ++ [n]) names := by
  simp [addNew]

theorem mem_addNew : a ∈ addNew known names ↔ a ∈ known ∨ a ∈ names := by
  induction names generalizing known with
  | nil => simp [addNew]
  | cons n names ih =>
      rw [addNew_cons, ih]
      by_cases hn : n ∈ known
      · rw [if_pos hn, List.mem_cons]
        exact ⟨fun h => h.imp_right .inr, fun h => h.elim .inl fun h => h.elim (fun he => .inl (he ▸ hn)) .inr⟩
      · rw [if_neg hn, List.mem_append, List.mem_singleton, List.mem_cons, or_assoc]

theorem prefix_addNew (known names : List String) : known <+: addNew known names := by
  induction names generalizing known with
  | nil => exact List.prefix_refl known
  | cons n names ih =>
      rw [addNew_cons]
      refine List.IsPrefix.trans ?_ (ih _)
      split
      · exact List.prefix_refl known
      · exact List.prefix_append known [n]

theorem nodup_addNew (hknown : known.Nodup) : (addNew known names).Nodup := by
  induction names generalizing known with
  | nil => exact hknown
  | cons n names ih =>
      rw [addNew_cons]
      refine ih ?_
      split
      · exact hknown
      · rename_i hn
        exact List.nodup_append.mpr ⟨hknown, List.nodup_singleton n, fun a ha b hb he =>
          hn (List.mem_singleton.mp hb ▸ he ▸ ha)⟩

structure Searched (h : Hierarchy) (name : String) (i : Nat) (known : List String) : Prop where
  nodup : known.Nodup
  start : name ∈ known
  reached : ∀ n ∈ known, h.Reaches name n
  followed : ∀ j < i, ∀ n, known[j]? = some n → ∀ m ∈ h.above n, m ∈ known

theorem searched_start (h : Hierarchy) (name : String) : h.Searched name 0 [name] :=
  ⟨List.nodup_singleton name, List.mem_singleton_self name, fun _ hn => List.mem_singleton.mp hn ▸ .refl,
    fun _ hj => absurd hj (Nat.not_lt_zero _)⟩

theorem Searched.next (hs : h.Searched name i known) (hn : known[i]? = some n) :
    h.Searched name (i + 1) (addNew known (h.above n)) := by
  refine ⟨nodup_addNew hs.nodup, mem_addNew.mpr (.inl hs.start), fun m hm => ?_, fun j hj m hm k hk => ?_⟩
  · rcases mem_addNew.mp hm with hm | hm
    · exact hs.reached m hm
    · exact (hs.reached n (List.mem_of_getElem? hn)).tail hm
  · have hlt : j < known.length := by
      have := (List.getElem?_eq_some_iff.mp hn).1
      omega
    obtain ⟨fresh, he⟩ := prefix_addNew known (h.above n)
    rw [← he, List.getElem?_append_left hlt] at hm
    rcases Nat.lt_succ_iff_lt_or_eq.mp hj with hj | rfl
    · exact mem_addNew.mpr (.inl (hs.followed j hj m hm k hk))
    · cases hn.symm.trans hm
      exact mem_addNew.mpr (.inr hk)

theorem above_subset (h : Hierarchy) (a : String) : h.above a ⊆ (h.classes ++ standard).flatMap parents := by
  intro b hb
  unfold above at hb
  split at hb
  · cases hb
  · cases hfind : h.find? a with
    | none =>
        rw [hfind] at hb
        cases hb
    | some found =>
        rw [hfind] at hb
        refine List.mem_flatMap.mpr ⟨found, ?_, hb⟩
        simp only [find?, Option.orElse_eq_orElse, Option.orElse_eq_or, Option.or_eq_some_iff] at hfind
        rcases hfind with hfound | ⟨-, hfound⟩
        · exact List.mem_append_left _ (List.mem_of_find?_eq_some hfound)
        · exact List.mem_append_right _ (List.mem_of_find?_eq_some hfound)

/-- The search never knows as many classes as it may go on with. -/
theorem Searched.length_lt (hs : h.Searched name i known) : known.length < h.bound := by
  have hsub : known ⊆ name :: (h.classes ++ standard).flatMap parents := by
    intro n hn
    rcases ReflTransGen.cases_tail (hs.reached n hn) with rfl | ⟨m, -, hm⟩
    · exact List.mem_cons_self
    · exact List.mem_cons_of_mem _ (above_subset h m hm)
  have hlen := (hs.nodup.subperm hsub).length_le
  rw [List.length_cons] at hlen
  unfold bound
  omega

theorem Searched.climb (hs : h.Searched name i known) (hrounds : h.bound ≤ rounds + i) :
    h.Searched name (h.climb rounds i known).length (h.climb rounds i known) := by
  induction rounds generalizing i known with
  | zero =>
      have hlt := hs.length_lt
      exact ⟨hs.nodup, hs.start, hs.reached, fun j hj => hs.followed j (by simp only [Hierarchy.climb] at hj; omega)⟩
  | succ rounds ih =>
      unfold Hierarchy.climb
      cases hn : known[i]? with
      | none =>
          have hle := List.getElem?_eq_none_iff.mp hn
          exact ⟨hs.nodup, hs.start, hs.reached, fun j hj => hs.followed j (lt_of_lt_of_le hj hle)⟩
      | some n => exact ih (hs.next hn) (by omega)

/-- Once there are enough rounds, more of them add nothing. -/
theorem Searched.climb_succ (hs : h.Searched name i known) (hrounds : h.bound ≤ rounds + i) :
    h.climb (rounds + 1) i known = h.climb rounds i known := by
  induction rounds generalizing i known with
  | zero =>
      have hlt := hs.length_lt
      simp only [Hierarchy.climb, List.getElem?_eq_none_iff.mpr (show known.length ≤ i by omega)]
  | succ rounds ih =>
      rw [Hierarchy.climb, Hierarchy.climb]
      cases hn : known[i]? with
      | none => rfl
      | some n => exact ih (hs.next hn) (by omega)

theorem climb_eq_reached (h : Hierarchy) (name : String) (hrounds : h.bound ≤ rounds) :
    h.climb rounds 0 [name] = h.reached name := by
  induction rounds, hrounds using Nat.le_induction with
  | base => rfl
  | succ rounds hle ih => rw [(searched_start h name).climb_succ hle, ih]

theorem mem_reached : a ∈ h.reached name ↔ h.Reaches name a := by
  have hs := (searched_start h name).climb (Nat.le_refl h.bound)
  refine ⟨hs.reached a, fun hreach => ?_⟩
  induction hreach with
  | refl => exact hs.start
  | tail _ hstep ih =>
      obtain ⟨j, hj⟩ := List.mem_iff_getElem?.mp ih
      exact hs.followed j (List.getElem?_eq_some_iff.mp hj).1 _ hj _ hstep

theorem isComplete_iff : h.isComplete name ↔ ∀ n, h.Reaches name n → n = Ty.objectClass ∨ (h.find? n).isSome := by
  simp [isComplete, mem_reached]

theorem mem_ancestors : a ∈ h.ancestors name ↔ h.Reaches name a ∨ a = Ty.objectClass ∧ h.isComplete name := by
  unfold ancestors
  dsimp only
  split
  · rename_i hroot
    rw [Bool.and_eq_true] at hroot
    rw [List.mem_append, mem_reached, List.mem_singleton, and_iff_left hroot.1]
  · rename_i hroot
    rw [mem_reached]
    refine ⟨.inl, fun ha => ha.elim id ?_⟩
    rintro ⟨rfl, hcomplete⟩
    by_contra hnot
    exact hroot (by simpa [hcomplete, mem_reached] using hnot)

theorem reaches_root : h.Reaches Ty.objectClass a ↔ a = Ty.objectClass := by
  refine ⟨fun hreach => ?_, fun he => he ▸ .refl⟩
  rcases ReflTransGen.cases_head hreach with he | ⟨b, hb, -⟩
  · exact he.symm
  · simp [above] at hb

theorem isSubtype_iff : h.isSubtype a b ↔ b = Ty.objectClass ∨ h.Reaches a b := by
  have hrefl : a = b → h.Reaches a b := fun he => he ▸ .refl
  simp only [isSubtype, Bool.or_eq_true, beq_iff_eq, List.contains_iff_mem, mem_ancestors]
  tauto

theorem isSubtype_refl (h : Hierarchy) (a : String) : h.isSubtype a a := isSubtype_iff.mpr (.inr .refl)

theorem isSubtype_root (h : Hierarchy) (a : String) : h.isSubtype a Ty.objectClass := isSubtype_iff.mpr (.inl rfl)

theorem isSubtype_trans (hab : h.isSubtype a b) (hbc : h.isSubtype b c) : h.isSubtype a c := by
  rw [isSubtype_iff] at hab hbc ⊢
  rcases hbc with hc | hbc
  · exact .inl hc
  · rcases hab with rfl | hab
    · exact .inl (reaches_root.mp hbc)
    · exact .inr (hab.trans hbc)

theorem isSubtype_of_mem_ancestors (hb : b ∈ h.ancestors a) : h.isSubtype a b :=
  isSubtype_iff.mpr ((mem_ancestors.mp hb).elim .inr fun hroot => .inl hroot.1)

/-- A class above two others is the one of them that is above the other, or it is found among what stands above
both. -/
theorem common?_eq_some (hc : h.common? a b = some c) :
    (h.isSubtype a b ∧ c = b) ∨ (¬ h.isSubtype a b ∧ h.isSubtype b a ∧ c = a) ∨
      (¬ h.isSubtype a b ∧ ¬ h.isSubtype b a ∧ c ∈ h.ancestors a ∧ c ∈ h.ancestors b) := by
  unfold common? at hc
  split at hc
  · exact .inl ⟨‹_›, (Option.some.inj hc).symm⟩
  · split at hc
    · exact .inr (.inl ⟨‹_›, ‹_›, (Option.some.inj hc).symm⟩)
    · exact .inr (.inr ⟨‹_›, ‹_›, List.mem_of_find?_eq_some hc, List.contains_iff_mem.mp (List.find?_some hc)⟩)

theorem isSubtype_common (hc : h.common? a b = some c) : h.isSubtype a c ∧ h.isSubtype b c := by
  rcases common?_eq_some hc with ⟨hab, rfl⟩ | ⟨-, hba, rfl⟩ | ⟨-, -, ha, hb⟩
  · exact ⟨hab, isSubtype_refl h c⟩
  · exact ⟨isSubtype_refl h c, hba⟩
  · exact ⟨isSubtype_of_mem_ancestors ha, isSubtype_of_mem_ancestors hb⟩

theorem not_mem_ancestors_of_common?_none (hnone : h.common? a b = none) (hc : c ∈ h.ancestors a) :
    c ∉ h.ancestors b := by
  unfold common? at hnone
  split at hnone
  · cases hnone
  · split at hnone
    · cases hnone
    · simpa using List.find?_eq_none.mp hnone c hc

/-- Circles, names that are not known and interfaces that are shared do no harm to subtyping. -/
theorem subtyping_lawful (h : Hierarchy) : h.Lawful where
  refl := isSubtype_refl h
  trans _ _ _ := isSubtype_trans
  subtype_iff _ _ := isSubtype_iff
  ends a _ := climb_eq_reached h a
  reached_iff _ _ := mem_reached
  common_above _ _ _ := isSubtype_common
  none_apart _ _ hnone _ ha hb :=
    not_mem_ancestors_of_common?_none hnone (mem_ancestors.mpr (.inl ha)) (mem_ancestors.mpr (.inl hb))
  complete_common _ _ ha hb hnone :=
    not_mem_ancestors_of_common?_none hnone (mem_ancestors.mpr (.inr ⟨rfl, ha⟩)) (mem_ancestors.mpr (.inr ⟨rfl, hb⟩))

end JavaLift.Hierarchy
