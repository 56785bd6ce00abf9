import JavaLift.Proofs.Hierarchy.Ancestors
import JavaLift.Proofs.Ty.Candidates

namespace JavaLift

namespace Ty

def scalars : List Ty := [.void, .boolean, .byte, .short, .char, .int, .long, .float, .double, .conflict]

/-- Every type is undecided, a scalar, a candidate set or a reference. -/
theorem kinds (t : Ty) : t = .unknown ∨ t ∈ scalars ∨ (∃ s, t = .narrow s) ∨ t.isReference := by
  cases t <;> simp [scalars, isReference]

theorem unknown_not_mem_scalars : unknown ∉ scalars := by decide

theorem narrow_not_mem_scalars (s : Candidates) : narrow s ∉ scalars := by simp [scalars]

theorem not_mem_scalars {t : Ty} (ht : t.isReference) : t ∉ scalars := by
  cases t <;> simp_all [scalars, isReference]

theorem ne_unknown {t : Ty} (ht : t.isReference) : t ≠ .unknown := by
  rintro rfl
  cases ht

theorem ne_conflict {t : Ty} (ht : t.isReference) : t ≠ .conflict := by
  rintro rfl
  cases ht

theorem exists_of_isReference {t : Ty} (ht : t.isReference) : (∃ n, t = .object n) ∨ ∃ e, t = .array e := by
  cases t <;> simp_all [isReference]

theorem widened_mem : ∀ a ∈ scalars, ∀ b ∈ scalars, widened a b ∈ scalars := by decide

theorem widened_comm : ∀ a ∈ scalars, ∀ b ∈ scalars, widened a b = widened b a := by decide

theorem widened_assoc : ∀ a ∈ scalars, ∀ b ∈ scalars, ∀ c ∈ scalars,
    widened (widened a b) c = widened a (widened b c) := by decide +kernel

theorem widened_self (a : Ty) : widened a a = a := if_pos rfl

theorem widened_conflict : ∀ a ∈ scalars, widened .conflict a = .conflict := by decide

def ofAboveArrays (name : String) : Ty := if isAboveArrays name then .object name else .conflict

/-- The arrays whose elements are joined: without a common element type there are only objects left. -/
def arrayOf : Ty → Ty
  | .conflict => .object objectClass
  | t => .array t

theorem arrayOf_eq {t : Ty} (ht : t.isReference) : arrayOf t = .array t := by cases t <;> simp_all [arrayOf, isReference]

theorem arrayOf_inj {s t : Ty} (hs : s = .conflict ∨ s.isReference) (ht : t = .conflict ∨ t.isReference) :
    arrayOf s = arrayOf t ↔ s = t := by
  rcases hs with rfl | hs <;> rcases ht with rfl | ht
  · simp
  · rw [arrayOf_eq ht]
    exact ⟨fun he => absurd he (by simp [arrayOf]), fun he => absurd he.symm (ne_conflict ht)⟩
  · rw [arrayOf_eq hs]
    exact ⟨fun he => absurd he (by simp [arrayOf]), fun he => absurd he (ne_conflict hs)⟩
  · simp [arrayOf_eq hs, arrayOf_eq ht]

theorem isReference_arrayOf {t : Ty} : (arrayOf t).isReference := by cases t <;> rfl

theorem ofAboveArrays_root : ofAboveArrays objectClass = .object objectClass := by decide

theorem ofAboveArrays_kind (n : String) : ofAboveArrays n = .conflict ∨ (ofAboveArrays n).isReference := by
  unfold ofAboveArrays
  split
  · exact .inr rfl
  · exact .inl rfl

end Ty

namespace Hierarchy

open Ty

variable {h : Hierarchy} {a b c t x y : Ty} {s s' : Candidates} {m n : String}

def joinUnlike (h : Hierarchy) : Ty → Ty → Ty
  | .narrow s, .narrow t => if s.intersects t then .narrow (s.inter t) else .conflict
  | .narrow s, t | t, .narrow s => joinCandidates s t
  | .array x, .array y => if x.isReference && y.isReference then arrayOf (h.join x y) else .object objectClass
  | a, b => h.joinSettled a b

theorem join_eq (h : Hierarchy) (a b : Ty) : h.join a b =
    if a = .unknown then b
    else if b = .unknown then a
    else if a = .conflict || b = .conflict then .conflict
    else if a = b then a
    else h.joinUnlike a b := by
  cases a <;> cases b <;> rfl

@[simp]
theorem join_unknown_left (h : Hierarchy) (b : Ty) : h.join .unknown b = b := by rw [join_eq, if_pos rfl]

@[simp]
theorem join_unknown_right (h : Hierarchy) (a : Ty) : h.join a .unknown = a := by
  rw [join_eq]
  by_cases ha : a = .unknown <;> simp [ha]

@[simp]
theorem join_self (h : Hierarchy) (a : Ty) : h.join a a = a := by
  rw [join_eq]
  by_cases hu : a = .unknown <;> by_cases hc : a = .conflict <;> simp [hu, hc]

@[simp]
theorem join_conflict_left (h : Hierarchy) (b : Ty) : h.join .conflict b = .conflict := by
  rw [join_eq]
  by_cases hb : b = .unknown <;> simp [hb]

@[simp]
theorem join_conflict_right (h : Hierarchy) (a : Ty) : h.join a .conflict = .conflict := by
  rw [join_eq]
  by_cases ha : a = .unknown <;> simp [ha]

theorem join_unlike (ha : a ≠ .unknown ∧ a ≠ .conflict) (hb : b ≠ .unknown ∧ b ≠ .conflict) (hab : a ≠ b) :
    h.join a b = h.joinUnlike a b := by
  rw [join_eq, if_neg ha.1, if_neg hb.1, if_neg (by simp [ha.2, hb.2]), if_neg hab]

theorem join_scalars (ha : a ∈ scalars) (hb : b ∈ scalars) : h.join a b = widened a b := by
  by_cases hab : a = b
  · rw [hab, join_self, widened_self]
  · simp only [scalars, List.mem_cons, List.not_mem_nil, or_false] at ha hb
    rcases ha with rfl | rfl | rfl | rfl | rfl | rfl | rfl | rfl | rfl | rfl <;>
      rcases hb with rfl | rfl | rfl | rfl | rfl | rfl | rfl | rfl | rfl | rfl <;> first | exact absurd rfl hab | rfl

theorem joinCandidates_conflict (s : Candidates) : joinCandidates s .conflict = .conflict := by
  simp [joinCandidates, candidates, isPrimitive]

theorem join_narrow_left (hu : t ≠ .unknown) (hn : ∀ s, t ≠ .narrow s) : h.join (.narrow s) t = joinCandidates s t := by
  by_cases hc : t = .conflict
  · rw [hc, join_conflict_right, joinCandidates_conflict]
  · rw [join_unlike (by simp) ⟨hu, hc⟩ (hn s).symm]
    cases t with
    | narrow s' => exact absurd rfl (hn s')
    | _ => rfl

theorem join_narrow_right (hu : t ≠ .unknown) (hn : ∀ s, t ≠ .narrow s) : h.join t (.narrow s) = joinCandidates s t := by
  by_cases hc : t = .conflict
  · rw [hc, join_conflict_left, joinCandidates_conflict]
  · rw [join_unlike ⟨hu, hc⟩ (by simp) (hn s)]
    cases t with
    | narrow s' => exact absurd rfl (hn s')
    | _ => rfl

theorem join_narrow (hs : ¬ s.isEmpty) :
    h.join (.narrow s) (.narrow s') = if s.intersects s' then .narrow (s.inter s') else .conflict := by
  by_cases he : s = s'
  · subst he
    rw [join_self, Candidates.intersects, Candidates.inter_self, if_pos (by simpa using hs)]
  · exact join_unlike (by simp) (by simp) (by simpa using he)

theorem join_narrow_or (h : Hierarchy) (s s' : Candidates) :
    h.join (.narrow s) (.narrow s') = .narrow (s.inter s') ∨ h.join (.narrow s) (.narrow s') = .conflict := by
  by_cases he : s = s'
  · rw [he, join_self, Candidates.inter_self]
    exact .inl rfl
  · rw [join_unlike (by simp) (by simp) (by simpa using he), joinUnlike]
    split
    · exact .inl rfl
    · exact .inr rfl

theorem join_scalar_reference (ha : a ∈ scalars) (hb : b.isReference) : h.join a b = .conflict := by
  simp only [scalars, List.mem_cons, List.not_mem_nil, or_false] at ha
  rcases exists_of_isReference hb with ⟨n, rfl⟩ | ⟨e, rfl⟩ <;>
    rcases ha with rfl | rfl | rfl | rfl | rfl | rfl | rfl | rfl | rfl | rfl <;> rfl

theorem join_reference_scalar (ha : a.isReference) (hb : b ∈ scalars) : h.join a b = .conflict := by
  simp only [scalars, List.mem_cons, List.not_mem_nil, or_false] at hb
  rcases exists_of_isReference ha with ⟨n, rfl⟩ | ⟨e, rfl⟩ <;>
    rcases hb with rfl | rfl | rfl | rfl | rfl | rfl | rfl | rfl | rfl | rfl <;> rfl

theorem common?_self (h : Hierarchy) (n : String) : h.common? n n = some n := by
  simp [common?, isSubtype_refl]

theorem common?_root_right (h : Hierarchy) (n : String) : h.common? n objectClass = some objectClass := by
  simp [common?, isSubtype_root]

theorem common?_root_left (h : Hierarchy) (n : String) : h.common? objectClass n = some objectClass := by
  by_cases hn : n = objectClass
  · rw [hn, common?_self]
  · have hnot : ¬ h.isSubtype objectClass n := fun hsub =>
      hn ((isSubtype_iff.mp hsub).elim id reaches_root.mp)
    simp [common?, isSubtype_root, hnot]

theorem join_object (h : Hierarchy) (m n : String) :
    h.join (.object m) (.object n) = (h.common? m n).elim .conflict .object := by
  by_cases he : m = n
  · rw [he, join_self, common?_self, Option.elim_some]
  · exact join_unlike (by simp) (by simp) (by simpa using he)

theorem join_array_object (h : Hierarchy) (x : Ty) (n : String) : h.join (.array x) (.object n) = ofAboveArrays n := rfl

theorem join_object_array (h : Hierarchy) (n : String) (x : Ty) : h.join (.object n) (.array x) = ofAboveArrays n := rfl

/-- Two classes, or two references that are no classes, have a reference in common, if anything. -/
theorem join_references (ha : a.isReference) (hb : b.isReference) :
    h.join a b = .conflict ∨ (h.join a b).isReference := by
  rcases exists_of_isReference ha with ⟨m, rfl⟩ | ⟨x, rfl⟩ <;> rcases exists_of_isReference hb with ⟨n, rfl⟩ | ⟨y, rfl⟩
  · rw [join_object]
    cases h.common? m n with
    | none => exact .inl rfl
    | some => exact .inr rfl
  · rw [join_object_array]
    exact ofAboveArrays_kind m
  · rw [join_array_object]
    exact ofAboveArrays_kind n
  · right
    by_cases he : x = y
    · rw [he, join_self]
      rfl
    · rw [join_unlike (by simp) (by simp) (by simpa using he), joinUnlike]
      split
      · exact isReference_arrayOf
      · rfl

/-- Arrays of references are joined by their elements. -/
theorem join_array_references (hx : x.isReference) (hy : y.isReference) :
    h.join (.array x) (.array y) = arrayOf (h.join x y) := by
  by_cases he : x = y
  · rw [he, join_self, join_self, arrayOf_eq hy]
  · rw [join_unlike (by simp) (by simp) (by simpa using he), joinUnlike, if_pos (by rw [hx, hy]; rfl)]

/-- Arrays of other elements have only objects in common, unless they are the same. -/
theorem join_array_others (hxy : ¬ (x.isReference ∧ y.isReference)) :
    h.join (.array x) (.array y) = if x = y then .array x else .object objectClass := by
  by_cases he : x = y
  · rw [he, join_self, if_pos rfl]
  · rw [if_neg he, join_unlike (by simp) (by simp) (by simpa using he), joinUnlike, if_neg (by simpa using hxy)]

theorem join_arrays (h : Hierarchy) (x y : Ty) :
    (∃ e, h.join (.array x) (.array y) = .array e) ∨ h.join (.array x) (.array y) = .object objectClass := by
  by_cases hxy : x.isReference ∧ y.isReference
  · rw [join_array_references hxy.1 hxy.2]
    rcases join_references (h := h) hxy.1 hxy.2 with hc | hr
    · exact .inr (by rw [hc, arrayOf])
    · exact .inl ⟨_, arrayOf_eq hr⟩
  · rw [join_array_others hxy]
    split
    · exact .inl ⟨x, rfl⟩
    · exact .inr rfl

/-- A reference stands for a value with candidates that may be null. -/
theorem joinCandidates_reference (hs : s.contains .object = s.contains .array) (ht : t.isReference) :
    joinCandidates s t = if s.contains .object then t else .conflict := by
  rcases exists_of_isReference ht with ⟨n, rfl⟩ | ⟨e, rfl⟩ <;> simp [joinCandidates, candidates, isPrimitive, hs]

theorem contains_numeric (k : Candidate) :
    numeric.contains k ↔ k ≠ .boolean ∧ k ≠ .object ∧ k ≠ .array := by
  have hall : ∀ k ∈ Candidate.all, numeric.contains k ↔ k ≠ .boolean ∧ k ≠ .object ∧ k ≠ .array := by decide
  exact hall k (by cases k <;> decide)

/-- A number type is preferred where there is one to choose. -/
theorem preferred_mem (hs : s.intersects numeric) : preferred s ∈ scalars := by
  obtain ⟨k, hk, hnumeric⟩ := Candidates.intersects_iff.mp hs
  obtain ⟨hboolean, hobject, harray⟩ := (contains_numeric k).mp hnumeric
  unfold preferred
  split_ifs <;> try decide
  cases k <;> simp_all

theorem joinCandidates_mem (ht : t ∈ scalars) : joinCandidates s t ∈ scalars := by
  unfold joinCandidates
  split
  · exact ht
  · split
    · rename_i hnumeric
      exact widened_mem _ (preferred_mem (Bool.and_eq_true_iff.mp hnumeric).2) t ht
    · decide

end Hierarchy

end JavaLift
