import Mathlib

namespace JavaLift.Assoc

variable {α β γ : Type} [BEq α] [LawfulBEq α] {l : List (α × β)} {a : α} {b : β}

theorem mem_of_lookup (h : l.lookup a = some b) : (a, b) ∈ l := by
  obtain ⟨l₁, l₂, rfl, -⟩ := List.lookup_eq_some_iff.mp h
  simp

theorem isSome_lookup (h : (a, b) ∈ l) : (l.lookup a).isSome := by
  by_contra hnone
  have hne := List.lookup_eq_none_iff.mp (Option.not_isSome_iff_eq_none.mp hnone) _ h
  simp at hne

theorem lookup_eq_some (h : (l.map Prod.fst).Nodup) : l.lookup a = some b ↔ (a, b) ∈ l := by
  refine ⟨mem_of_lookup, fun hmem => ?_⟩
  induction l with
  | nil => cases hmem
  | cons x rest ih =>
      obtain ⟨c, d⟩ := x
      rw [List.map_cons, List.nodup_cons] at h
      rcases List.mem_cons.mp hmem with he | hmem
      · cases he
        exact List.lookup_cons_self
      · have hne : a ≠ c := fun he => h.1 (he ▸ List.mem_map.mpr ⟨_, hmem, rfl⟩)
        rw [List.lookup_cons, beq_false_of_ne hne]
        exact ih h.2 hmem

theorem lookup_map (f : α → β → γ) (l : List (α × β)) (a : α) :
    (l.map fun x => (x.1, f x.1 x.2)).lookup a = (l.lookup a).map (f a) := by
  induction l with
  | nil => rfl
  | cons x rest ih =>
      obtain ⟨c, d⟩ := x
      rw [List.map_cons, List.lookup_cons, List.lookup_cons, ih]
      cases hc : a == c with
      | true =>
          rw [eq_of_beq hc]
          rfl
      | false => rfl

end JavaLift.Assoc
