import JavaLift.Proofs.Hierarchy.Regrouping

namespace JavaLift

namespace Hierarchy

open Ty

/-- On some types the join is that of a semilattice, and joins any list of them to one type, whatever its order. -/
structure Semilattice (h : Hierarchy) (T : Ty → Prop) : Prop where
  idem (a : Ty) : T a → h.join a a = a
  comm (a b : Ty) : T a → T b → h.join a b = h.join b a
  assoc (a b c : Ty) : T a → T b → T c → h.join (h.join a b) c = h.join a (h.join b c)
  order (l l' : List Ty) : l.Perm l' → (∀ t ∈ l, T t) → l.foldl h.join .unknown = l'.foldl h.join .unknown

variable {h : Hierarchy}

/-- A join that can be taken in any order gives any list of types the same. -/
theorem foldl_join_perm {T : Ty → Prop} {l l' : List Ty} (closed : ∀ a b, T a → T b → T (h.join a b))
    (comm : ∀ a b, T a → T b → h.join a b = h.join b a)
    (assoc : ∀ a b c, T a → T b → T c → h.join (h.join a b) c = h.join a (h.join b c)) (hl : l.Perm l')
    (hT : ∀ t ∈ l, T t) (t : Ty) (ht : t = .unknown ∨ T t) : l.foldl h.join t = l'.foldl h.join t := by
  have hstep {t u : Ty} (ht : t = .unknown ∨ T t) (hu : T u) : T (h.join t u) := by
    rcases ht with rfl | ht
    · rwa [join_unknown_left]
    · exact closed t u ht hu
  induction hl generalizing t with
  | nil => rfl
  | cons u _ ih =>
      rw [List.forall_mem_cons] at hT
      exact ih hT.2 _ (.inr (hstep ht hT.1))
  | swap u v l =>
      simp only [List.forall_mem_cons] at hT
      have hswap : h.join (h.join t v) u = h.join (h.join t u) v := by
        rcases ht with rfl | ht
        · rw [join_unknown_left, join_unknown_left, comm v u hT.1 hT.2.1]
        · rw [assoc t v u ht hT.1 hT.2.1, assoc t u v ht hT.2.1 hT.1, comm v u hT.1 hT.2.1]
      rw [List.foldl_cons, List.foldl_cons, List.foldl_cons, List.foldl_cons, hswap]
  | trans hl _ ih ih' => rw [ih hT t ht, ih' (fun u hu => hT u (hl.mem_iff.mpr hu)) t ht]

/-- On types that joins do not lead out of, and with the candidates of ordinary values only, the join is that of a
semilattice just when the lookups commute and all types can be regrouped. -/
theorem semilattice_iff (h : Hierarchy) (T : Ty → Prop) (closed : ∀ a b, T a → T b → T (h.join a b))
    (ordinary : ∀ t, T t → Ordinary t) :
    h.Semilattice T ↔ (∀ a b, T a → T b → h.Commutes a b) ∧ ∀ a b c, T a → T b → T c → h.Regroups a b c := by
  constructor
  · intro hsemi
    exact ⟨fun a b ha hb => (join_comm_iff h a b).mp (hsemi.comm a b ha hb), fun a b c ha hb hc =>
      (join_assoc_iff h (ordinary a ha) (ordinary b hb) (ordinary c hc)).mp (hsemi.assoc a b c ha hb hc)⟩
  · rintro ⟨hcomm, hregroup⟩
    have comm (a b : Ty) (ha : T a) (hb : T b) : h.join a b = h.join b a := (join_comm_iff h a b).mpr (hcomm a b ha hb)
    have assoc (a b c : Ty) (ha : T a) (hb : T b) (hc : T c) : h.join (h.join a b) c = h.join a (h.join b c) :=
      (join_assoc_iff h (ordinary a ha) (ordinary b hb) (ordinary c hc)).mpr (hregroup a b c ha hb hc)
    exact ⟨fun a _ => join_self h a, comm, assoc, fun l l' hl hT => foldl_join_perm closed comm assoc hl hT _ (.inl rfl)⟩

/-- An int, the constants null and zero, and classes with the root in common. -/
theorem semilattice_iff_zero :
    let T : List Ty := [.unknown, .conflict, .int, .narrow (.ofLiteral 0 false), .narrow .reference, .object stringClass,
      .object "java.lang.Number", .object objectClass]
    (∀ a b, a ∈ T → b ∈ T → (Hierarchy.mk []).join a b ∈ T) ∧ (∀ t ∈ T, Ordinary t) ∧
      (Hierarchy.mk []).Semilattice (· ∈ T) := by
  intro T
  have closed : ∀ a ∈ T, ∀ b ∈ T, (Hierarchy.mk []).join a b ∈ T := by decide +kernel
  have ordinary : ∀ t ∈ T, Ordinary t := by
    intro t ht s hs
    subst hs
    simp only [T, List.mem_cons, List.not_mem_nil, or_false, narrow.injEq, reduceCtorEq, false_or] at ht
    rcases ht with rfl | rfl
    · exact .number (by decide) (by decide) (by decide) (by decide)
    · exact .null rfl
  have comm : ∀ a ∈ T, ∀ b ∈ T, (Hierarchy.mk []).join a b = (Hierarchy.mk []).join b a := by decide +kernel
  have assoc : ∀ a ∈ T, ∀ b ∈ T, ∀ c ∈ T, (Hierarchy.mk []).join ((Hierarchy.mk []).join a b) c =
      (Hierarchy.mk []).join a ((Hierarchy.mk []).join b c) := by decide +kernel
  refine ⟨fun a b ha hb => closed a ha b hb, ordinary,
    (semilattice_iff ⟨[]⟩ (· ∈ T) (fun a b ha hb => closed a ha b hb) ordinary).mpr
      ⟨fun a b ha hb => (join_comm_iff _ a b).mp (comm a ha b hb), fun a b c ha hb hc => ?_⟩⟩
  exact (join_assoc_iff _ (ordinary a ha) (ordinary b hb) (ordinary c hc)).mp (assoc a ha b hb c hc)

/-- Strings and integers are comparable, but only the lookup from one side finds it. -/
theorem not_semilattice_stringInteger : ¬ (Hierarchy.mk []).Semilattice fun _ => True := fun hsemi =>
  absurd (hsemi.comm (.object stringClass) (.object "java.lang.Integer") trivial trivial) (by decide +kernel)

end Hierarchy

end JavaLift
