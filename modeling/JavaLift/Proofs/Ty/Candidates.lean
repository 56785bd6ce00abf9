import JavaLift.Hierarchy.Lattice
import Mathlib

namespace JavaLift.Candidates

variable {s t : Candidates} {k : Candidate}

theorem index_lt (k : Candidate) : k.index < 10 := by cases k <;> decide

theorem index_inj {k l : Candidate} : k.index = l.index ↔ k = l := by
  constructor
  · cases k <;> cases l <;> simp [Candidate.index]
  · rintro rfl
    rfl

theorem exists_index {i : Nat} (hi : i < 10) : ∃ k : Candidate, k.index = i := by
  have hall : ∀ i < 10, ∃ k ∈ Candidate.all, k.index = i := by decide
  obtain ⟨k, -, hk⟩ := hall i hi
  exact ⟨k, hk⟩

theorem ext (h : ∀ k, s.contains k = t.contains k) : s = t := by
  obtain ⟨f⟩ := s
  obtain ⟨f'⟩ := t
  congr
  refine BitVec.eq_of_getLsbD_eq fun i hi => ?_
  obtain ⟨k, rfl⟩ := exists_index hi
  exact h k

@[simp]
theorem contains_empty (k : Candidate) : empty.contains k = false := by simp [empty, contains]

@[simp]
theorem contains_single (l k : Candidate) : (single l).contains k = decide (l = k) := by
  simp [contains, single, index_lt, index_inj, eq_comm]

@[simp]
theorem contains_inter (s t : Candidates) (k : Candidate) : (s.inter t).contains k = (s.contains k && t.contains k) := by
  simp [contains, inter]

@[simp]
theorem contains_union (s t : Candidates) (k : Candidate) : (s.union t).contains k = (s.contains k || t.contains k) := by
  simp [contains, union]

@[simp]
theorem contains_diff (s t : Candidates) (k : Candidate) : (s.diff t).contains k = (s.contains k && !t.contains k) := by
  simp [contains, diff, index_lt]

theorem contains_ofList (ks : List Candidate) (k : Candidate) : (ofList ks).contains k = decide (k ∈ ks) := by
  have hfold (ks : List Candidate) (f : BitVec 10) :
      (⟨ks.foldl (fun s k => s ||| BitVec.twoPow 10 k.index) f⟩ : Candidates).contains k =
        ((⟨f⟩ : Candidates).contains k || decide (k ∈ ks)) := by
    induction ks generalizing f with
    | nil => simp
    | cons l ks ih =>
        rw [List.foldl_cons, ih]
        have hl : (⟨f ||| BitVec.twoPow 10 l.index⟩ : Candidates).contains k = _ := contains_union ⟨f⟩ (single l) k
        rw [hl, contains_single, Bool.or_assoc]
        simp [eq_comm]
  rw [ofList, hfold]
  simp [contains]

theorem isEmpty_iff : s.isEmpty ↔ ∀ k, s.contains k = false := by
  rw [isEmpty, beq_iff_eq]
  refine ⟨fun h k => by simp [contains, h], fun h => ?_⟩
  exact congrArg flags (ext (s := s) (t := empty) fun k => (h k).trans (contains_empty k).symm)

theorem intersects_iff : s.intersects t ↔ ∃ k, s.contains k ∧ t.contains k := by
  rw [intersects, Bool.not_eq_true', ← Bool.not_eq_true, isEmpty_iff]
  simp

theorem intersects_comm (s t : Candidates) : s.intersects t = t.intersects s := by
  rw [Bool.eq_iff_iff, intersects_iff, intersects_iff]
  exact exists_congr fun k => and_comm

@[simp]
theorem intersects_single (s : Candidates) (k : Candidate) : s.intersects (single k) = s.contains k := by
  rw [Bool.eq_iff_iff, intersects_iff]
  simp

@[simp]
theorem intersects_empty (s : Candidates) : s.intersects empty = false := by
  rw [← Bool.not_eq_true, intersects_iff]
  simp

theorem isSubset_iff : s.isSubset t ↔ ∀ k, s.contains k → t.contains k := by
  have h : s.isSubset t = (s.diff t).isEmpty := rfl
  rw [h, isEmpty_iff]
  refine forall_congr' fun k => ?_
  cases hs : s.contains k <;> cases ht : t.contains k <;> simp [hs, ht]

theorem isSubset_inter {l : Candidates} (h : s.isSubset l ∨ t.isSubset l) : (s.inter t).isSubset l := by
  simp only [isSubset_iff, contains_inter, Bool.and_eq_true] at h ⊢
  exact fun k hk => h.elim (· k hk.1) (· k hk.2)

@[simp]
theorem inter_self (s : Candidates) : s.inter s = s := ext fun k => by simp

/-- The kinds that can hold a literal that takes one register. -/
theorem contains_ofLiteral (value : Int) (k : Candidate) :
    (ofLiteral value false).contains k = match k with
      | .int | .float => true
      | .boolean => decide (value = 0 ∨ value = 1)
      | .object | .array => decide (value = 0)
      | .byte => decide (-0x80 ≤ value ∧ value < 0x80)
      | .short => decide (-0x8000 ≤ value ∧ value < 0x8000)
      | .char => decide (0 ≤ value ∧ value < 0x10000)
      | .long | .double => false := by
  rw [ofLiteral, if_neg Bool.false_ne_true, contains_ofList]
  have hsplit {P : Prop} [Decidable P] (l : List Candidate) : k ∈ (if P then l else []) ↔ P ∧ k ∈ l := by
    split <;> simp [*]
  simp only [List.flatten_cons, List.flatten_nil, List.mem_append, hsplit, List.mem_cons, List.not_mem_nil]
  cases k <;> simp

end JavaLift.Candidates
