import JavaLift.Proofs.Hierarchy.Join

namespace JavaLift

namespace Candidates

/-- The candidate sets of the constants and operands of instructions: those of an int, which is null as an object just
when it is null as an array, those of a wide value, and those of null. -/
inductive Ordinary (s : Candidates) : Prop
  | number (int : s.contains .int) (long : ¬ s.contains .long) (double : ¬ s.contains .double)
      (null : s.contains .object = s.contains .array)
  | wide (h : s = .wide)
  | null (h : s = .reference)

theorem Ordinary.object_eq_array {s : Candidates} (hs : s.Ordinary) : s.contains .object = s.contains .array := by
  rcases hs with ⟨-, -, -, hnull⟩ | rfl | rfl
  · exact hnull
  · decide
  · decide

theorem Ordinary.not_isEmpty {s : Candidates} (hs : s.Ordinary) : ¬ s.isEmpty := by
  rcases hs with ⟨hint, -, -, -⟩ | rfl | rfl
  · exact fun he => by simp [isEmpty_iff.mp he] at hint
  · decide
  · decide

def Apart (s t : Candidates) : Prop := s.intersects Ty.numeric ∧ t.intersects Ty.numeric ∧ ¬ s.intersects t

end Candidates

namespace Ty

def classes? : Ty → Ty → Option (String × String)
  | .object x, .object y => some (x, y)
  | .array s, .array t => classes? s t
  | _, _ => none

/-- Numbers can be regrouped if candidates that meet byte before short have both of them or none, and a number does not
stand beside candidates that are apart. -/
def RegroupNumbers (a b c : Ty) : Prop :=
  (∀ s, .narrow s ∈ [a, b, c] → .byte ∈ [a, b, c] → .short ∈ [a, c] → s.contains .byte = s.contains .short) ∧
    ∀ s t u, (a = .narrow s ∧ b = .narrow t ∧ c = u ∨ a = u ∧ b = .narrow s ∧ c = .narrow t) → u.rank?.isSome → ¬ s.Apart t

/-! What has to be checked of numbers, by the places of the candidates -/

section

variable {a b c t : Ty} {s s' s'' : Candidates}

theorem regroupNumbers_left (hb : ∀ s, b ≠ .narrow s) (hc : ∀ s, c ≠ .narrow s) :
    RegroupNumbers (.narrow s) b c ↔ (b = .byte → c = .short → s.contains .byte = s.contains .short) := by
  grind [RegroupNumbers]

theorem regroupNumbers_middle (ha : ∀ s, a ≠ .narrow s) (hc : ∀ s, c ≠ .narrow s) :
    RegroupNumbers a (.narrow s) c ↔
      (a = .byte ∧ c = .short ∨ a = .short ∧ c = .byte → s.contains .byte = s.contains .short) := by
  grind [RegroupNumbers]

theorem regroupNumbers_right (ha : ∀ s, a ≠ .narrow s) (hb : ∀ s, b ≠ .narrow s) :
    RegroupNumbers a b (.narrow s) ↔ (b = .byte → a = .short → s.contains .byte = s.contains .short) := by
  grind [RegroupNumbers]

theorem regroupNumbers_narrows_left (hc : ∀ s, c ≠ .narrow s) :
    RegroupNumbers (.narrow s) (.narrow s') c ↔ (c.rank?.isSome → ¬ s.Apart s') := by
  grind [RegroupNumbers]

theorem regroupNumbers_narrows_right (ha : ∀ s, a ≠ .narrow s) :
    RegroupNumbers a (.narrow s) (.narrow s') ↔ (a.rank?.isSome → ¬ s.Apart s') := by
  grind [RegroupNumbers]

theorem regroupNumbers_outer (hb : ∀ s, b ≠ .narrow s) : RegroupNumbers (.narrow s) b (.narrow s') := by
  grind [RegroupNumbers]

theorem regroupNumbers_narrows : RegroupNumbers (.narrow s) (.narrow s') (.narrow s'') := by
  grind [RegroupNumbers, rank?]

theorem regroupNumbers_settled (ha : ∀ s, a ≠ .narrow s) (hb : ∀ s, b ≠ .narrow s) (hc : ∀ s, c ≠ .narrow s) :
    RegroupNumbers a b c := by
  grind [RegroupNumbers]

/-- Nothing has to be checked beside a type that is neither a number nor a candidate set. -/
theorem regroupNumbers_beside (ht : t.rank? = none) (hn : ∀ s, t ≠ .narrow s) (hmem : t ∈ [a, b, c]) :
    RegroupNumbers a b c := by
  have hbyte : t ≠ .byte := by
    rintro rfl
    cases ht
  have hshort : t ≠ .short := by
    rintro rfl
    cases ht
  grind [RegroupNumbers]

theorem regroupNumbers_reference (ht : t.isReference) (hmem : t ∈ [a, b, c]) : RegroupNumbers a b c := by
  refine regroupNumbers_beside ?_ ?_ hmem
  · cases t <;> first | rfl | cases ht
  · rintro s rfl
    cases ht

end

end Ty

namespace Hierarchy

open Ty

/-- The lookup of a common class gives the same from both sides. -/
def Commutes (h : Hierarchy) (a b : Ty) : Prop :=
  ∀ x y, a.classes? b = some (x, y) → h.common? x y = h.common? y x

/-- References can be regrouped if the lookups of common classes can. Beside an array, what two classes share must be
above arrays just when the class next to the array is; beside two arrays that are not joined to an array there can only
be the root. -/
def RegroupReferences (h : Hierarchy) : Ty → Ty → Ty → Prop
  | .object x, .object y, .object z => (h.common? x y).bind (h.common? · z) = (h.common? y z).bind (h.common? x ·)
  | .array x, .array y, .array z => x.isReference → y.isReference → z.isReference → h.RegroupReferences x y z
  | .object n, .array x, .array y | .array x, .array y, .object n =>
    n = objectClass ∨ h.join (.array x) (.array y) ≠ .object objectClass
  | .object x, .object y, .array _ => ∀ c, h.common? x y = some c → isAboveArrays y = isAboveArrays c
  | .array _, .object x, .object y => ∀ c, h.common? x y = some c → isAboveArrays x = isAboveArrays c
  | .object x, .array _, .object y => h.common? x y = none ∨ isAboveArrays x = isAboveArrays y
  | _, _, _ => True

def Regroups (h : Hierarchy) (a b c : Ty) : Prop := RegroupNumbers a b c ∧ h.RegroupReferences a b c

section

variable {h : Hierarchy} {a b c t u x y z : Ty} {s s' s'' : Candidates} {m n : String}

/-! Commutation -/

theorem join_narrow_comm (h : Hierarchy) (s s' : Candidates) :
    h.join (.narrow s) (.narrow s') = h.join (.narrow s') (.narrow s) := by
  by_cases he : s = s'
  · rw [he]
  · have hinter : s.inter s' = s'.inter s := Candidates.ext fun k => by simp [Bool.and_comm]
    rw [join_unlike (by simp) (by simp) (by simpa using he), join_unlike (by simp) (by simp) (by simpa using Ne.symm he),
      joinUnlike, joinUnlike, Candidates.intersects_comm, hinter]

/-- Only two references can depend on their order. -/
theorem join_comm_of_kinds (hab : ¬ (a.isReference ∧ b.isReference)) : h.join a b = h.join b a := by
  have hnarrow (s : Candidates) (t : Ty) : h.join (.narrow s) t = h.join t (.narrow s) := by
    rcases eq_or_ne t .unknown with rfl | hu
    · simp
    · by_cases hn : ∃ s', t = .narrow s'
      · obtain ⟨s', rfl⟩ := hn
        exact join_narrow_comm h s s'
      · have hne (s' : Candidates) : t ≠ .narrow s' := fun he => hn ⟨s', he⟩
        rw [join_narrow_left hu hne, join_narrow_right hu hne]
  rcases a.kinds with rfl | ha | ⟨s, rfl⟩ | ha
  · simp
  · rcases b.kinds with rfl | hb | ⟨s, rfl⟩ | hb
    · simp
    · rw [join_scalars ha hb, join_scalars hb ha, widened_comm a ha b hb]
    · exact (hnarrow s a).symm
    · rw [join_scalar_reference ha hb, join_reference_scalar hb ha]
  · exact hnarrow s b
  · rcases b.kinds with rfl | hb | ⟨s, rfl⟩ | hb
    · simp
    · rw [join_reference_scalar ha hb, join_scalar_reference hb ha]
    · exact (hnarrow s a).symm
    · exact absurd ⟨ha, hb⟩ hab

theorem isReference_of_classes? {p : String × String} (hp : x.classes? y = some p) : x.isReference ∧ y.isReference := by
  cases x <;> cases y <;> first | exact ⟨rfl, rfl⟩ | cases hp

theorem join_comm_iff (h : Hierarchy) (a b : Ty) : h.join a b = h.join b a ↔ h.Commutes a b := by
  induction a generalizing b with
  | object m =>
      cases b with
      | object n =>
          rw [join_object, join_object]
          have hinj (o o' : Option String) : o.elim Ty.conflict .object = o'.elim Ty.conflict .object ↔ o = o' := by
            cases o <;> cases o' <;> simp
          rw [hinj]
          refine ⟨fun he x y hxy => ?_, fun hcomm => hcomm m n rfl⟩
          cases hxy
          exact he
      | array => exact iff_of_true rfl fun _ _ hp => by cases hp
      | _ => exact iff_of_true (join_comm_of_kinds (by simp [isReference])) fun _ _ hp => by cases hp
  | array x ih =>
      cases b with
      | array y =>
          by_cases hxy : x.isReference ∧ y.isReference
          · obtain ⟨hx, hy⟩ := hxy
            rw [join_array_references hx hy, join_array_references hy hx,
              arrayOf_inj (join_references hx hy) (join_references hy hx)]
            exact ih y
          · rw [join_array_others hxy, join_array_others fun hyx => hxy hyx.symm]
            refine iff_of_true ?_ fun m n hp => absurd (isReference_of_classes? (x := x) (y := y) hp) hxy
            by_cases he : x = y
            · rw [he]
            · rw [if_neg he, if_neg (Ne.symm he)]
      | object => exact iff_of_true rfl fun _ _ hp => by cases hp
      | _ => exact iff_of_true (join_comm_of_kinds (by simp [isReference])) fun _ _ hp => by cases hp
  | _ => exact iff_of_true (join_comm_of_kinds (by simp [isReference])) fun _ _ hp => by cases hp

/-! Regrouping types of unlike kinds -/

/-- What the join with anything decided keeps, both groupings of three types keep from one of them. -/
theorem absorbed {P : Ty → Prop} (hP : ∀ a b, P a → b ≠ .unknown → P (h.join a b) ∧ P (h.join b a))
    (hu : ∀ a b, a ≠ .unknown → b ≠ .unknown → h.join a b ≠ .unknown)
    (ha : a ≠ .unknown) (hb : b ≠ .unknown) (hc : c ≠ .unknown) (habc : P a ∨ P b ∨ P c) :
    P (h.join (h.join a b) c) ∧ P (h.join a (h.join b c)) := by
  have hbc := hu b c hb hc
  have hab := hu a b ha hb
  rcases habc with hp | hp | hp
  · exact ⟨(hP _ c (hP a b hp hb).1 hc).1, (hP a _ hp hbc).1⟩
  · exact ⟨(hP _ c (hP b a hp ha).2 hc).1, (hP _ a (hP b c hp hc).1 ha).2⟩
  · exact ⟨(hP c _ hp hab).2, (hP _ a (hP c b hp hb).2 ha).2⟩

theorem join_scalar_mem (ha : a ∈ scalars) (hb : b ≠ .unknown) : h.join a b ∈ scalars ∧ h.join b a ∈ scalars := by
  rcases b.kinds with hu | hb' | ⟨s, rfl⟩ | hb'
  · exact absurd hu hb
  · rw [join_scalars ha hb', join_scalars hb' ha]
    exact ⟨widened_mem a ha b hb', widened_mem b hb' a ha⟩
  · have hu : a ≠ .unknown := fun he => unknown_not_mem_scalars (he ▸ ha)
    have hn (s : Candidates) : a ≠ .narrow s := fun he => narrow_not_mem_scalars s (he ▸ ha)
    rw [join_narrow_left hu hn, join_narrow_right hu hn]
    exact ⟨joinCandidates_mem ha, joinCandidates_mem ha⟩
  · rw [join_scalar_reference ha hb', join_reference_scalar hb' ha]
    decide

def High (t : Ty) : Prop := t = .conflict ∨ t.isReference

theorem High.join (ha : High a) (hb : b ≠ .unknown) : High (h.join a b) ∧ High (h.join b a) := by
  rcases ha with rfl | ha
  · rw [join_conflict_left, join_conflict_right]
    exact ⟨.inl rfl, .inl rfl⟩
  · rcases b.kinds with hu | hb' | ⟨s, rfl⟩ | hb'
    · exact absurd hu hb
    · rw [join_reference_scalar ha hb', join_scalar_reference hb' ha]
      exact ⟨.inl rfl, .inl rfl⟩
    · have hn (s : Candidates) : a ≠ .narrow s := by
        rintro rfl
        cases ha
      rw [join_narrow_left (ne_unknown ha) hn, join_narrow_right (ne_unknown ha) hn]
      have hhigh : High (joinCandidates s a) := by
        unfold joinCandidates
        rw [show a.isPrimitive = false by cases a <;> simp_all [isReference, isPrimitive]]
        split
        · exact .inr ha
        · exact .inl rfl
      exact ⟨hhigh, hhigh⟩
    · exact ⟨join_references ha hb', join_references hb' ha⟩

theorem join_ne_unknown (ha : a ≠ .unknown) (hb : b ≠ .unknown) : h.join a b ≠ .unknown := by
  have hscalar {t : Ty} (ht : t ∈ scalars) : t ≠ .unknown := fun he => unknown_not_mem_scalars (he ▸ ht)
  have hhigh {t : Ty} (ht : High t) : t ≠ .unknown := ht.elim (fun he => by simp [he]) ne_unknown
  rcases a.kinds with hu | ha' | ⟨s, rfl⟩ | ha'
  · exact absurd hu ha
  · exact hscalar (join_scalar_mem ha' hb).1
  · rcases b.kinds with hu | hb' | ⟨s', rfl⟩ | hb'
    · exact absurd hu hb
    · exact hscalar (join_scalar_mem hb' ha).2
    · rcases join_narrow_or h s s' with he | he <;> simp [he]
    · exact hhigh (High.join (.inr hb') ha).2
  · exact hhigh (High.join (.inr ha') hb).1

/-- A scalar and a reference are in conflict, whatever the third type is. -/
theorem assoc_of_unlike (ha : a ≠ .unknown) (hb : b ≠ .unknown) (hc : c ≠ .unknown)
    (hscalar : a ∈ scalars ∨ b ∈ scalars ∨ c ∈ scalars) (href : a.isReference ∨ b.isReference ∨ c.isReference) :
    h.join (h.join a b) c = h.join a (h.join b c) := by
  have hs := absorbed (h := h) (P := (· ∈ scalars)) (fun _ _ => join_scalar_mem) (fun _ _ => join_ne_unknown) ha hb hc
    hscalar
  have hr := absorbed (h := h) (P := High) (fun _ _ => High.join) (fun _ _ => join_ne_unknown) ha hb hc
    (href.imp .inr (.imp .inr .inr))
  rw [hr.1.resolve_right fun hr => not_mem_scalars hr hs.1, hr.2.resolve_right fun hr => not_mem_scalars hr hs.2]

/-! Regrouping references -/

/-- The join of a candidate set and what is no number: it passes if it may be null. -/
theorem join_narrow_high (hs : s.contains .object = s.contains .array) (ht : High t) :
    h.join (.narrow s) t = (if s.contains .object then t else .conflict) ∧
      h.join t (.narrow s) = if s.contains .object then t else .conflict := by
  rcases ht with rfl | ht
  · simp
  · have hn (s : Candidates) : t ≠ .narrow s := by
      rintro rfl
      cases ht
    rw [join_narrow_left (ne_unknown ht) hn, join_narrow_right (ne_unknown ht) hn, joinCandidates_reference hs ht]
    exact ⟨rfl, rfl⟩

theorem high_ite {p : Prop} [Decidable p] (ht : High t) : High (if p then t else .conflict) := by
  split
  · exact ht
  · exact .inl rfl

/-- Candidate sets can be grouped in any way with references. -/
theorem assoc_narrow_references (hs : s.contains .object = s.contains .array) (ha : High a) (hb : High b)
    (hab : High (h.join a b)) :
    h.join (h.join (.narrow s) a) b = h.join (.narrow s) (h.join a b) ∧
      h.join (h.join a (.narrow s)) b = h.join a (h.join (.narrow s) b) ∧
      h.join (h.join a b) (.narrow s) = h.join a (h.join b (.narrow s)) := by
  simp only [join_narrow_high hs ha, join_narrow_high hs hb, join_narrow_high hs hab]
  cases s.contains .object <;> simp

theorem assoc_narrows_reference (hs : s.contains .object = s.contains .array)
    (hs' : s'.contains .object = s'.contains .array) (hne : ¬ s.isEmpty) (ht : High t) :
    h.join (h.join (.narrow s) (.narrow s')) t = h.join (.narrow s) (h.join (.narrow s') t) ∧
      h.join (h.join (.narrow s) t) (.narrow s') = h.join (.narrow s) (h.join t (.narrow s')) ∧
      h.join (h.join t (.narrow s)) (.narrow s') = h.join t (h.join (.narrow s) (.narrow s')) := by
  have hinter : (s.inter s').contains .object = (s.inter s').contains .array := by simp [hs, hs']
  simp only [join_narrow hne, join_narrow_high hs ht, join_narrow_high hs' ht, join_narrow_high hs (high_ite ht),
    join_narrow_high hs' (high_ite ht)]
  by_cases hmeet : s.intersects s'
  · simp only [hmeet, if_true, join_narrow_high hinter ht, Candidates.contains_inter]
    cases s.contains .object <;> cases s'.contains .object <;> simp
  · have hnot : ¬ (s.contains .object ∧ s'.contains .object) := fun hboth =>
      hmeet (Candidates.intersects_iff.mpr ⟨_, hboth⟩)
    simp only [hmeet, Bool.false_eq_true, if_false, join_conflict_left, join_conflict_right]
    revert hnot
    cases s.contains .object <;> cases s'.contains .object <;> simp

theorem assoc_narrows (hs : ¬ s.isEmpty) (hs' : ¬ s'.isEmpty) :
    h.join (h.join (.narrow s) (.narrow s')) (.narrow s'') = h.join (.narrow s) (h.join (.narrow s') (.narrow s'')) := by
  have hmeet : (s.inter s').intersects s'' ↔ s.intersects (s'.inter s'') := by
    simp only [Candidates.intersects_iff, Candidates.contains_inter, Bool.and_eq_true, and_assoc]
  have hinter : (s.inter s').inter s'' = s.inter (s'.inter s'') := Candidates.ext fun k => by simp [Bool.and_assoc]
  have hnonempty {t t' : Candidates} (ht : t.intersects t') : ¬ (t.inter t').isEmpty := by
    simpa [Candidates.intersects] using ht
  rw [join_narrow hs, join_narrow hs']
  by_cases hl : s.intersects s' <;> by_cases hr : s'.intersects s''
  · rw [if_pos hl, if_pos hr, join_narrow (hnonempty hl), join_narrow hs, hinter]
    simp only [hmeet]
  · have hnot : ¬ (s.inter s').intersects s'' := fun hm => hr (by
      obtain ⟨k, hk, hk'⟩ := Candidates.intersects_iff.mp hm
      exact Candidates.intersects_iff.mpr ⟨k, by simp_all, hk'⟩)
    rw [if_pos hl, if_neg hr, join_narrow (hnonempty hl), if_neg hnot, join_conflict_right]
  · have hnot : ¬ s.intersects (s'.inter s'') := fun hm => hl (by
      obtain ⟨k, hk, hk'⟩ := Candidates.intersects_iff.mp hm
      exact Candidates.intersects_iff.mpr ⟨k, hk, by simp_all⟩)
    rw [if_neg hl, if_pos hr, join_narrow hs, if_neg hnot, join_conflict_left]
  · rw [if_neg hl, if_neg hr, join_conflict_left, join_conflict_right]

/-- Arrays that do not all have references as elements are the same array, or have only objects in common. -/
theorem assoc_array_others (hxyz : ¬ (x.isReference ∧ y.isReference ∧ z.isReference)) :
    h.join (h.join (.array x) (.array y)) (.array z) = h.join (.array x) (h.join (.array y) (.array z)) := by
  have hroot (t : Ty) : h.join (.object objectClass) (.array t) = .object objectClass := ofAboveArrays_root
  have hroot' (t : Ty) : h.join (.array t) (.object objectClass) = .object objectClass := ofAboveArrays_root
  by_cases hsame : x = y ∧ y = z
  · obtain ⟨rfl, rfl⟩ := hsame
    simp
  have hleft : h.join (h.join (.array x) (.array y)) (.array z) = .object objectClass := by
    by_cases hxy : x.isReference ∧ y.isReference
    · rw [join_array_references hxy.1 hxy.2]
      have hz : ¬ z.isReference := fun hz => hxyz ⟨hxy.1, hxy.2, hz⟩
      rcases join_references (h := h) hxy.1 hxy.2 with hc | hr
      · rw [hc]
        exact hroot z
      · rw [arrayOf_eq hr, join_array_others fun hboth => hz hboth.2, if_neg fun he : h.join x y = z => hz (he ▸ hr)]
    · rw [join_array_others hxy]
      by_cases he : x = y
      · subst he
        rw [if_pos rfl, join_array_others fun hboth => hxy ⟨hboth.1, hboth.1⟩, if_neg fun he => hsame ⟨rfl, he⟩]
      · rw [if_neg he, hroot]
  have hright : h.join (.array x) (h.join (.array y) (.array z)) = .object objectClass := by
    by_cases hyz : y.isReference ∧ z.isReference
    · rw [join_array_references hyz.1 hyz.2]
      have hx : ¬ x.isReference := fun hx => hxyz ⟨hx, hyz⟩
      rcases join_references (h := h) hyz.1 hyz.2 with hc | hr
      · rw [hc]
        exact hroot' x
      · rw [arrayOf_eq hr, join_array_others fun hboth => hx hboth.1, if_neg fun he : x = h.join y z => hx (he ▸ hr)]
    · rw [join_array_others hyz]
      by_cases he : y = z
      · subst he
        rw [if_pos rfl, join_array_others fun hboth => hyz ⟨hboth.2, hboth.2⟩, if_neg fun he => hsame ⟨he, rfl⟩]
      · rw [if_neg he, hroot']
  rw [hleft, hright]

theorem join_arrayOf_array (ht : High t) (hz : z.isReference) :
    h.join (arrayOf t) (.array z) = arrayOf (h.join t z) ∧ h.join (.array z) (arrayOf t) = arrayOf (h.join z t) := by
  rcases ht with rfl | ht
  · rw [join_conflict_left, join_conflict_right]
    exact ⟨ofAboveArrays_root, ofAboveArrays_root⟩
  · rw [arrayOf_eq ht, join_array_references ht hz, join_array_references hz ht]
    exact ⟨rfl, rfl⟩

theorem join_elim_object (o : Option String) (n : String) :
    h.join (o.elim .conflict .object) (.object n) = (o.bind (h.common? · n)).elim .conflict .object := by
  cases o with
  | none => exact join_conflict_left h _
  | some m => exact join_object h m n

theorem join_object_elim (o : Option String) (n : String) :
    h.join (.object n) (o.elim .conflict .object) = (o.bind (h.common? n ·)).elim .conflict .object := by
  cases o with
  | none => exact join_conflict_right h _
  | some m => exact join_object h n m

theorem elim_object_inj {o o' : Option String} :
    o.elim Ty.conflict .object = o'.elim Ty.conflict .object ↔ o = o' := by
  cases o <;> cases o' <;> simp

theorem join_array_ofAboveArrays (h : Hierarchy) (x : Ty) (n : String) :
    h.join (.array x) (ofAboveArrays n) = ofAboveArrays n ∧ h.join (ofAboveArrays n) (.array x) = ofAboveArrays n := by
  by_cases hn : isAboveArrays n
  · have hobject : ofAboveArrays n = .object n := if_pos hn
    rw [hobject, join_array_object, join_object_array, hobject]
    exact ⟨rfl, rfl⟩
  · rw [ofAboveArrays, if_neg hn, join_conflict_left, join_conflict_right]
    exact ⟨rfl, rfl⟩

theorem ofAboveArrays_eq_root : ofAboveArrays n = .object objectClass ↔ n = objectClass := by
  refine ⟨fun he => ?_, fun hn => hn ▸ ofAboveArrays_root⟩
  unfold ofAboveArrays at he
  split at he
  · exact Ty.object.inj he
  · cases he

/-- Two arrays beside a class: the class decides, unless only the root is left of the arrays. -/
theorem join_arrays_object (h : Hierarchy) (x y : Ty) (n : String) :
    (h.join (h.join (.array x) (.array y)) (.object n) = ofAboveArrays n ↔
        n = objectClass ∨ h.join (.array x) (.array y) ≠ .object objectClass) ∧
      (h.join (.object n) (h.join (.array x) (.array y)) = ofAboveArrays n ↔
        n = objectClass ∨ h.join (.array x) (.array y) ≠ .object objectClass) := by
  rcases join_arrays h x y with ⟨e, he⟩ | he
  · rw [he, join_array_object, join_object_array]
    simp
  · rw [he, join_object, join_object, common?_root_left, common?_root_right, Option.elim_some]
    have hn : Ty.object objectClass = ofAboveArrays n ↔ n = objectClass := eq_comm.trans ofAboveArrays_eq_root
    simp [hn]

theorem assoc_references_iff (h : Hierarchy) (ha : a.isReference) (hb : b.isReference) (hc : c.isReference) :
    h.join (h.join a b) c = h.join a (h.join b c) ↔ h.RegroupReferences a b c := by
  induction a generalizing b c with
  | object x =>
      rcases exists_of_isReference hb with ⟨y, rfl⟩ | ⟨y, rfl⟩ <;> rcases exists_of_isReference hc with ⟨z, rfl⟩ | ⟨z, rfl⟩
      · rw [join_object, join_object, join_elim_object, join_object_elim, elim_object_inj, RegroupReferences]
      · rw [join_object, join_object_array, RegroupReferences]
        rcases hxy : h.common? x y with _ | c <;> by_cases hy : isAboveArrays y
        · simp [ofAboveArrays, hy, join_object, hxy]
        · simp [ofAboveArrays, hy]
        · simp [ofAboveArrays, hy, join_object, hxy, join_object_array]
        · simp [ofAboveArrays, hy, join_object_array]
      · rw [join_object_array, join_array_object, RegroupReferences]
        rcases hxz : h.common? x z with _ | c <;> by_cases hx : isAboveArrays x <;> by_cases hz : isAboveArrays z <;>
          simp [ofAboveArrays, hx, hz, join_object, hxz]
      · rw [join_object_array, (join_array_ofAboveArrays h z x).2, RegroupReferences, eq_comm]
        exact (join_arrays_object h y z x).2
  | array x ih =>
      rcases exists_of_isReference hb with ⟨y, rfl⟩ | ⟨y, rfl⟩ <;> rcases exists_of_isReference hc with ⟨z, rfl⟩ | ⟨z, rfl⟩
      · rw [join_object, join_array_object, RegroupReferences]
        rcases hyz : h.common? y z with _ | c <;> by_cases hy : isAboveArrays y
        · simp [ofAboveArrays, hy, join_object, hyz]
        · simp [ofAboveArrays, hy]
        · simp [ofAboveArrays, hy, join_object, hyz, join_array_object]
        · simp [ofAboveArrays, hy, join_array_object]
      · rw [join_array_object, join_object_array, (join_array_ofAboveArrays h z y).2, (join_array_ofAboveArrays h x y).1,
          RegroupReferences]
        · exact iff_of_true rfl trivial
        all_goals simp
      · rw [join_array_object, (join_array_ofAboveArrays h x z).1, RegroupReferences]
        exact (join_arrays_object h x y z).1
      · rw [RegroupReferences]
        by_cases hxyz : x.isReference ∧ y.isReference ∧ z.isReference
        · obtain ⟨hx, hy, hz⟩ := hxyz
          have hxy := join_references (h := h) hx hy
          have hyz := join_references (h := h) hy hz
          rw [join_array_references hx hy, join_array_references hy hz, (join_arrayOf_array hxy hz).1,
            (join_arrayOf_array hyz hx).2, arrayOf_inj (High.join hxy (ne_unknown hz)).1 (High.join hyz (ne_unknown hx)).2,
            ih hx hy hz]
          simp [hx, hy, hz]
        · exact iff_of_true (assoc_array_others hxyz) fun hx hy hz => absurd ⟨hx, hy, hz⟩ hxyz
  | _ => cases ha

/-! Regrouping numbers -/

/-- How a constant of type int takes a number: it has the number's type, or an int is widened. -/
theorem joinCandidates_number (hint : s.contains .int) (ht : t ∈ scalars) :
    joinCandidates s t = if s.intersects t.candidates then t else widened .int t := by
  have hnumeric : s.intersects numeric := Candidates.intersects_iff.mpr ⟨_, hint, by decide⟩
  have hother : ∀ t ∈ scalars, ¬ t.isPrimitive → widened .int t = .conflict := by decide
  have hpreferred : preferred s = .int := if_pos hint
  unfold joinCandidates
  rw [hpreferred, hnumeric, Bool.and_true]
  split
  · rfl
  · split
    · rfl
    · exact (hother t ht ‹_›).symm

/-- A wide constant is a long that may be widened, and null is no number. -/
theorem joinCandidates_fixed {m : Ty} (hs : s = .wide ∧ m = .long ∨ s = .reference ∧ m = .conflict) (ht : t ∈ scalars) :
    joinCandidates s t = widened m t := by
  have hwide : ∀ t ∈ scalars, joinCandidates .wide t = widened .long t := by decide
  have hnull : ∀ t ∈ scalars, joinCandidates .reference t = widened .conflict t := by decide
  rcases hs with ⟨rfl, rfl⟩ | ⟨rfl, rfl⟩
  · exact hwide t ht
  · exact hnull t ht

/-- A number of int type or of a type next to byte and short absorbs ints. -/
theorem absorbs_int : ∀ t ∈ scalars, ∀ u ∈ scalars, t = u ∨ t = .byte ∧ u = .short ∨ t = .short ∧ u = .byte ∨
    widened .int (widened t u) = widened t u := by decide +kernel

theorem join_narrow_scalar (ht : t ∈ scalars) :
    h.join (.narrow s) t = joinCandidates s t ∧ h.join t (.narrow s) = joinCandidates s t :=
  have hu : t ≠ .unknown := fun he => unknown_not_mem_scalars (he ▸ ht)
  have hn (s : Candidates) : t ≠ .narrow s := fun he => narrow_not_mem_scalars s (he ▸ ht)
  ⟨join_narrow_left hu hn, join_narrow_right hu hn⟩

theorem joinCandidates_number_or (hint : s.contains .int) (ht : t ∈ scalars) :
    joinCandidates s t = t ∨ joinCandidates s t = widened .int t := by
  rw [joinCandidates_number hint ht]
  split
  · exact .inl rfl
  · exact .inr rfl

theorem ordinary_kinds (hs : s.Ordinary) :
    s.contains .int ∨ ∃ m ∈ scalars, widened .int m = m ∧ (∀ t ∈ scalars, joinCandidates s t = widened m t) ∧
      s.contains .byte = s.contains .short := by
  rcases hs with ⟨hint, -, -, -⟩ | rfl | rfl
  · exact .inl hint
  · exact .inr ⟨.long, by decide, by decide, fun t ht => joinCandidates_fixed (.inl ⟨rfl, rfl⟩) ht, by decide⟩
  · exact .inr ⟨.conflict, by decide, by decide, fun t ht => joinCandidates_fixed (.inr ⟨rfl, rfl⟩) ht, by decide⟩

/-- Candidates before two numbers. -/
theorem joinCandidates_widened_iff (hs : s.Ordinary) (ht : t ∈ scalars) (hu : u ∈ scalars) :
    widened (joinCandidates s t) u = joinCandidates s (widened t u) ↔
      (t = .byte → u = .short → s.contains .byte = s.contains .short) := by
  have htu := widened_mem t ht u hu
  rcases ordinary_kinds hs with hint | ⟨m, hm, -, hf, heq⟩
  · rcases absorbs_int t ht u hu with rfl | ⟨rfl, rfl⟩ | ⟨rfl, rfl⟩ | habs
    · refine iff_of_true ?_ fun he he' => by rw [he] at he'; cases he'
      rw [widened_self]
      rcases joinCandidates_number_or hint ht with he | he
      · rw [he, widened_self]
      · rw [he, widened_assoc _ (by decide) t ht t ht, widened_self]
    · have hshort : widened .byte .short = .short := rfl
      rw [hshort, joinCandidates_number hint ht, joinCandidates_number hint hu]
      simp only [candidates, Candidates.intersects_single]
      cases s.contains .byte <;> cases s.contains .short <;> decide
    · refine iff_of_true ?_ fun he => by cases he
      have hshort : widened .short .byte = .short := rfl
      rw [hshort, joinCandidates_number hint ht]
      split <;> rfl
    · have hnot : ¬ (t = .byte ∧ u = .short) := by
        rintro ⟨rfl, rfl⟩
        exact absurd habs (by decide)
      refine iff_of_true ?_ fun he he' => absurd ⟨he, he'⟩ hnot
      have hright : joinCandidates s (widened t u) = widened t u :=
        (joinCandidates_number_or hint htu).elim id fun he => he.trans habs
      rw [hright]
      rcases joinCandidates_number_or hint ht with he | he
      · rw [he]
      · rw [he, widened_assoc _ (by decide) t ht u hu, habs]
  · exact iff_of_true (by rw [hf t ht, hf _ htu, widened_assoc m hm t ht u hu]) fun _ _ => heq

/-- Candidates between two numbers. -/
theorem widened_joinCandidates_iff (hs : s.Ordinary) (ht : t ∈ scalars) (hu : u ∈ scalars) :
    widened (joinCandidates s t) u = widened t (joinCandidates s u) ↔
      (t = .byte ∧ u = .short ∨ t = .short ∧ u = .byte → s.contains .byte = s.contains .short) := by
  have hswap : widened t (joinCandidates s u) = widened (joinCandidates s u) t :=
    widened_comm t ht _ (joinCandidates_mem hu)
  by_cases hpair : t = .byte ∧ u = .short ∨ t = .short ∧ u = .byte
  · rcases ordinary_kinds hs with hint | ⟨m, hm, -, hf, heq⟩
    · rcases hpair with ⟨rfl, rfl⟩ | ⟨rfl, rfl⟩ <;>
        rw [joinCandidates_number hint ht, joinCandidates_number hint hu] <;>
        simp only [candidates, Candidates.intersects_single] <;>
        cases s.contains .byte <;> cases s.contains .short <;> decide
    · refine iff_of_true ?_ fun _ => heq
      rw [hswap, hf t ht, hf u hu, widened_assoc m hm t ht u hu, widened_assoc m hm u hu t ht, widened_comm t ht u hu]
  · refine iff_of_true ?_ fun hp => absurd hp hpair
    rw [hswap, (joinCandidates_widened_iff hs ht hu).mpr fun he he' => absurd (.inl ⟨he, he'⟩) hpair,
      (joinCandidates_widened_iff hs hu ht).mpr fun he he' => absurd (.inr ⟨he', he⟩) hpair, widened_comm t ht u hu]

/-- Constants of int type take a number one after the other as their common candidates do. -/
theorem joinCandidates_inter (hs : s.contains .int) (hs' : s'.contains .int) (hu : u ∈ scalars) :
    joinCandidates (s.inter s') u = joinCandidates s (joinCandidates s' u) := by
  have hinter : (s.inter s').intersects u.candidates = (s.intersects u.candidates && s'.intersects u.candidates) := by
    have hsingle : ∀ u ∈ scalars, u.candidates = .empty ∨ ∃ k ∈ Candidate.all, u.candidates = .single k := by decide
    rcases hsingle u hu with he | ⟨k, -, he⟩ <;> simp [he]
  have hwide : joinCandidates s (widened .int u) = widened .int u := by
    rcases joinCandidates_number_or hs (widened_mem .int (by decide) u hu) with he | he
    · exact he
    · rw [he, ← widened_assoc _ (by decide) _ (by decide) u hu, widened_self]
  rw [joinCandidates_number (by simp [hs, hs']) hu, hinter, joinCandidates_number hs' hu]
  cases hu' : s'.intersects u.candidates
  · simpa using hwide.symm
  · simp [joinCandidates_number hs hu]

/-- What takes every number as a wider one does not notice whether an int was widened before. -/
theorem joinCandidates_absorbs {m : Ty} (hs : s.contains .int) (hm : m ∈ scalars) (hint : widened .int m = m)
    (hu : u ∈ scalars) :
    joinCandidates s (widened m u) = widened m u ∧ widened m (joinCandidates s u) = widened m u := by
  constructor
  · rcases joinCandidates_number_or hs (widened_mem m hm u hu) with he | he
    · exact he
    · rw [he, ← widened_assoc _ (by decide) m hm u hu, hint]
  · rcases joinCandidates_number_or hs hu with he | he
    · rw [he]
    · rw [he, ← widened_assoc m hm _ (by decide) u hu, widened_comm m hm _ (by decide), hint]

theorem joinCandidates_comm (hs : s.Ordinary) (hs' : s'.Ordinary) (hu : u ∈ scalars) :
    joinCandidates s (joinCandidates s' u) = joinCandidates s' (joinCandidates s u) := by
  rcases ordinary_kinds hs with hint | ⟨m, hm, habs, hf, -⟩ <;>
    rcases ordinary_kinds hs' with hint' | ⟨m', hm', habs', hf', -⟩
  · rw [← joinCandidates_inter hint hint' hu, ← joinCandidates_inter hint' hint hu]
    congr 1
    exact Candidates.ext fun k => by simp [Bool.and_comm]
  · obtain ⟨hl, hr⟩ := joinCandidates_absorbs hint hm' habs' hu
    rw [hf' u hu, hf' _ (joinCandidates_mem hu), hl, hr]
  · obtain ⟨hl, hr⟩ := joinCandidates_absorbs hint' hm habs hu
    rw [hf u hu, hf _ (joinCandidates_mem hu), hl, hr]
  · rw [hf u hu, hf' u hu, hf _ (widened_mem m' hm' u hu), hf' _ (widened_mem m hm u hu), ← widened_assoc m hm m' hm' u hu,
      ← widened_assoc m' hm' m hm u hu, widened_comm m hm m' hm']

/-- Null leaves no candidates for a number. -/
theorem join_null_scalar (hnull : s = .reference ∨ s' = .reference) (hs : s.Ordinary) (hu : u ∈ scalars) :
    h.join (h.join (.narrow s) (.narrow s')) u = .conflict := by
  rw [join_narrow hs.not_isEmpty]
  split
  · have hfew : ∀ k, (s.inter s').contains k → k = .object ∨ k = .array := by
      have hreference : ∀ k ∈ Candidate.all, Candidates.reference.contains k → k = .object ∨ k = .array := by decide
      intro k hk
      simp only [Candidates.contains_inter, Bool.and_eq_true] at hk
      exact hreference k (by cases k <;> decide) (hnull.elim (fun he => he ▸ hk.1) fun he => he ▸ hk.2)
    have hnone : ∀ u ∈ scalars, ¬ u.candidates.contains .object ∧ ¬ u.candidates.contains .array := by decide
    have hapart : ¬ (s.inter s').intersects u.candidates := by
      rw [Candidates.intersects_iff]
      rintro ⟨k, hk, hk'⟩
      rcases hfew k hk with rfl | rfl
      · exact (hnone u hu).1 hk'
      · exact (hnone u hu).2 hk'
    have hnumeric : ¬ (s.inter s').intersects numeric := by
      rw [Candidates.intersects_iff]
      rintro ⟨k, hk, hk'⟩
      obtain ⟨-, hobject, harray⟩ := (contains_numeric k).mp hk'
      exact (hfew k hk).elim hobject harray
    rw [(join_narrow_scalar hu).1, joinCandidates, if_neg hapart, if_neg (by simp [hnumeric])]
  · exact join_conflict_left h u

theorem joinCandidates_null (hnull : s = .reference ∨ s' = .reference) (hu : u ∈ scalars) :
    joinCandidates s (joinCandidates s' u) = .conflict := by
  have hconflict {t : Ty} (ht : t ∈ scalars) : joinCandidates .reference t = .conflict := by
    rw [joinCandidates_fixed (.inr ⟨rfl, rfl⟩) ht, widened_conflict t ht]
  rcases hnull with rfl | rfl
  · exact hconflict (joinCandidates_mem hu)
  · rw [hconflict hu, joinCandidates_conflict]

/-- Candidates that are apart are in conflict, although a number takes them one after the other. -/
theorem join_apart_iff (hap : s.Apart s') (hu : u ∈ scalars) (hfit : joinCandidates s (joinCandidates s' u) = widened .long u)
    (hs : s.Ordinary) :
    h.join (h.join (.narrow s) (.narrow s')) u = joinCandidates s (joinCandidates s' u) ↔ (u.rank?.isSome → ¬ s.Apart s') := by
  have hrank : ∀ u ∈ scalars, Ty.conflict = widened .long u ↔ ¬ u.rank?.isSome := by decide
  rw [hfit, join_narrow hs.not_isEmpty, if_neg hap.2.2, join_conflict_left, hrank u hu]
  simp [hap]

theorem join_narrows_scalar_iff (hs : s.Ordinary) (hs' : s'.Ordinary) (hu : u ∈ scalars) :
    h.join (h.join (.narrow s) (.narrow s')) u = joinCandidates s (joinCandidates s' u) ↔
      (u.rank?.isSome → ¬ s.Apart s') := by
  have hnumeric {s : Candidates} (hint : s.contains .int) : s.intersects numeric :=
    Candidates.intersects_iff.mpr ⟨_, hint, by decide⟩
  have hlong : ∀ t ∈ scalars, joinCandidates .wide t = widened .long t := fun t => joinCandidates_fixed (.inl ⟨rfl, rfl⟩)
  have hnotwide {s : Candidates} (hl : ¬ s.contains .long) (hd : ¬ s.contains .double) : ¬ s.intersects .wide := by
    have hwide : ∀ k ∈ Candidate.all, Candidates.wide.contains k → k = .long ∨ k = .double := by decide
    rw [Candidates.intersects_iff]
    rintro ⟨k, hk, hk'⟩
    rcases hwide k (by cases k <;> decide) hk' with rfl | rfl
    · exact hl hk
    · exact hd hk
  by_cases hnull : s = .reference ∨ s' = .reference
  · rw [join_null_scalar hnull hs hu, joinCandidates_null hnull hu]
    refine iff_of_true rfl fun _ hap => ?_
    have hnone : ¬ Candidates.reference.intersects numeric := by decide
    exact hnull.elim (fun he => hnone (he ▸ hap.1)) fun he => hnone (he ▸ hap.2.1)
  rcases id hs with ⟨hint, hl, hd, -⟩ | rfl | rfl <;> rcases id hs' with ⟨hint', hl', hd', -⟩ | rfl | rfl
  · have hmeet : s.intersects s' := Candidates.intersects_iff.mpr ⟨_, hint, hint'⟩
    rw [join_narrow hs.not_isEmpty, if_pos hmeet, (join_narrow_scalar hu).1, joinCandidates_inter hint hint' hu]
    exact iff_of_true rfl fun _ hap => hap.2.2 hmeet
  · exact join_apart_iff ⟨hnumeric hint, by decide, hnotwide hl hd⟩ hu
      (by rw [hlong u hu, (joinCandidates_absorbs hint (by decide) (by decide) hu).1]) hs
  · exact absurd (.inr rfl) hnull
  · exact join_apart_iff ⟨by decide, hnumeric hint', by rw [Candidates.intersects_comm]; exact hnotwide hl' hd'⟩ hu
      (by rw [hlong _ (joinCandidates_mem hu), (joinCandidates_absorbs hint' (by decide) (by decide) hu).2]) hs
  · rw [join_self, (join_narrow_scalar hu).1, hlong u hu, hlong _ (widened_mem _ (by decide) u hu),
      ← widened_assoc _ (by decide) _ (by decide) u hu, widened_self]
    exact iff_of_true rfl fun _ hap => hap.2.2 (by decide)
  · exact absurd (.inr rfl) hnull
  all_goals exact absurd (.inl rfl) hnull

theorem assoc_scalar_narrows_iff (ha : a ∈ scalars) (hs : s.Ordinary) (hs' : s'.Ordinary) :
    h.join (h.join a (.narrow s)) (.narrow s') = h.join a (h.join (.narrow s) (.narrow s')) ↔
      (a.rank?.isSome → ¬ s.Apart s') := by
  rw [(join_narrow_scalar ha).2, (join_narrow_scalar (joinCandidates_mem ha)).2, joinCandidates_comm hs' hs ha,
    join_comm_of_kinds (a := a) fun hr => not_mem_scalars hr.1 ha, eq_comm]
  exact join_narrows_scalar_iff hs hs' ha

/-- Scalars and candidates, none of which is a reference. -/
theorem assoc_numbers_iff (ha : a ∈ scalars ∨ ∃ s, a = .narrow s ∧ s.Ordinary)
    (hb : b ∈ scalars ∨ ∃ s, b = .narrow s ∧ s.Ordinary) (hc : c ∈ scalars ∨ ∃ s, c = .narrow s ∧ s.Ordinary) :
    h.join (h.join a b) c = h.join a (h.join b c) ↔ RegroupNumbers a b c := by
  have hn {t : Ty} (ht : t ∈ scalars) (s : Candidates) : t ≠ .narrow s := fun he => narrow_not_mem_scalars s (he ▸ ht)
  rcases ha with ha | ⟨s, rfl, hs⟩ <;> rcases hb with hb | ⟨s', rfl, hs'⟩ <;> rcases hc with hc | ⟨s'', rfl, hs''⟩
  · rw [join_scalars ha hb, join_scalars hb hc, join_scalars (widened_mem a ha b hb) hc,
      join_scalars ha (widened_mem b hb c hc)]
    exact iff_of_true (widened_assoc a ha b hb c hc) (regroupNumbers_settled (hn ha) (hn hb) (hn hc))
  · rw [join_scalars ha hb, (join_narrow_scalar hb).2, (join_narrow_scalar (widened_mem a ha b hb)).2,
      join_scalars ha (joinCandidates_mem hb), widened_comm a ha b hb, widened_comm a ha _ (joinCandidates_mem hb), eq_comm,
      joinCandidates_widened_iff hs'' hb ha, regroupNumbers_right (hn ha) (hn hb)]
  · rw [(join_narrow_scalar ha).2, (join_narrow_scalar hc).1, join_scalars (joinCandidates_mem ha) hc,
      join_scalars ha (joinCandidates_mem hc), widened_joinCandidates_iff hs' ha hc, regroupNumbers_middle (hn ha) (hn hc)]
  · rw [assoc_scalar_narrows_iff ha hs' hs'', regroupNumbers_narrows_right (hn ha)]
  · rw [(join_narrow_scalar hb).1, join_scalars hb hc, join_scalars (joinCandidates_mem hb) hc,
      (join_narrow_scalar (widened_mem b hb c hc)).1, joinCandidates_widened_iff hs hb hc,
      regroupNumbers_left (hn hb) (hn hc)]
  · rw [(join_narrow_scalar hb).1, (join_narrow_scalar hb).2, (join_narrow_scalar (joinCandidates_mem hb)).2,
      (join_narrow_scalar (joinCandidates_mem hb)).1]
    exact iff_of_true (joinCandidates_comm hs'' hs hb) (regroupNumbers_outer (hn hb))
  · rw [(join_narrow_scalar (s := s') hc).1, (join_narrow_scalar (joinCandidates_mem hc)).1, join_narrows_scalar_iff hs hs' hc,
      regroupNumbers_narrows_left (hn hc)]
  · exact iff_of_true (assoc_narrows hs.not_isEmpty hs'.not_isEmpty) regroupNumbers_narrows

/-! All types -/

theorem regroupReferences_beside (ht : ¬ t.isReference) (hmem : t ∈ [a, b, c]) : h.RegroupReferences a b c := by
  have hobject (n : String) : t ≠ .object n := by
    rintro rfl
    exact ht rfl
  have harray (x : Ty) : t ≠ .array x := by
    rintro rfl
    exact ht rfl
  unfold RegroupReferences
  split <;> simp_all

/-- Candidates that may be null can be grouped in any way with references. -/
theorem assoc_candidates_references (ha : (∃ s, a = .narrow s ∧ s.Ordinary) ∨ a.isReference)
    (hb : (∃ s, b = .narrow s ∧ s.Ordinary) ∨ b.isReference) (hc : (∃ s, c = .narrow s ∧ s.Ordinary) ∨ c.isReference)
    (hany : ¬ (a.isReference ∧ b.isReference ∧ c.isReference)) :
    h.join (h.join a b) c = h.join a (h.join b c) := by
  rcases ha with ⟨s, rfl, hs⟩ | ha <;> rcases hb with ⟨s', rfl, hs'⟩ | hb <;> rcases hc with ⟨s'', rfl, hs''⟩ | hc
  · exact assoc_narrows hs.not_isEmpty hs'.not_isEmpty
  · exact (assoc_narrows_reference hs.object_eq_array hs'.object_eq_array hs.not_isEmpty (.inr hc)).1
  · exact (assoc_narrows_reference hs.object_eq_array hs''.object_eq_array hs.not_isEmpty (.inr hb)).2.1
  · exact (assoc_narrow_references hs.object_eq_array (.inr hb) (.inr hc) (join_references hb hc)).1
  · exact (assoc_narrows_reference hs'.object_eq_array hs''.object_eq_array hs'.not_isEmpty (.inr ha)).2.2
  · exact (assoc_narrow_references hs'.object_eq_array (.inr ha) (.inr hc) (join_references ha hc)).2.1
  · exact (assoc_narrow_references hs''.object_eq_array (.inr ha) (.inr hb) (join_references ha hb)).2.2
  · exact absurd ⟨ha, hb, hc⟩ hany

def Ordinary (t : Ty) : Prop := ∀ s, t = .narrow s → s.Ordinary

theorem join_assoc_iff (h : Hierarchy) (ha : Ordinary a) (hb : Ordinary b) (hc : Ordinary c) :
    h.join (h.join a b) c = h.join a (h.join b c) ↔ h.Regroups a b c := by
  by_cases hu : .unknown ∈ [a, b, c]
  · refine iff_of_true ?_ ⟨regroupNumbers_beside rfl (by simp) hu, regroupReferences_beside (by decide) hu⟩
    simp only [List.mem_cons, List.not_mem_nil, or_false] at hu
    rcases hu with rfl | rfl | rfl <;> simp
  simp only [List.mem_cons, List.not_mem_nil, or_false, not_or] at hu
  obtain ⟨hau, hbu, hcu⟩ := hu
  have hkind {t : Ty} (ht : Ordinary t) (hu : .unknown ≠ t) :
      t ∈ scalars ∨ (∃ s, t = .narrow s ∧ s.Ordinary) ∨ t.isReference := by
    rcases t.kinds with he | he | ⟨s, rfl⟩ | he
    · exact absurd he.symm hu
    · exact .inl he
    · exact .inr (.inl ⟨s, rfl, ht s rfl⟩)
    · exact .inr (.inr he)
  have hnumber {t : Ty} (ht : Ordinary t) (hu : .unknown ≠ t) (hr : ¬ t.isReference) :
      t ∈ scalars ∨ ∃ s, t = .narrow s ∧ s.Ordinary := (hkind ht hu).imp_right fun ht => ht.resolve_right hr
  by_cases hall : a.isReference ∧ b.isReference ∧ c.isReference
  · obtain ⟨har, hbr, hcr⟩ := hall
    rw [assoc_references_iff h har hbr hcr, Regroups, and_iff_right]
    exact regroupNumbers_reference har (by simp)
  obtain ⟨t, hmem, ht⟩ : ∃ t ∈ [a, b, c], ¬ t.isReference := by
    simpa only [List.mem_cons, List.not_mem_nil, or_false, exists_eq_or_imp, exists_eq_left, not_and_or] using hall
  rw [Regroups, and_iff_left (regroupReferences_beside ht hmem)]
  by_cases hany : ∃ t ∈ [a, b, c], t.isReference
  · obtain ⟨r, hmem, hr⟩ := hany
    refine iff_of_true ?_ (regroupNumbers_reference hr hmem)
    by_cases hscalar : a ∈ scalars ∨ b ∈ scalars ∨ c ∈ scalars
    · refine assoc_of_unlike (Ne.symm hau) (Ne.symm hbu) (Ne.symm hcu) hscalar ?_
      simp only [List.mem_cons, List.not_mem_nil, or_false] at hmem
      rcases hmem with rfl | rfl | rfl
      · exact .inl hr
      · exact .inr (.inl hr)
      · exact .inr (.inr hr)
    · simp only [not_or] at hscalar
      exact assoc_candidates_references ((hkind ha hau).resolve_left hscalar.1) ((hkind hb hbu).resolve_left hscalar.2.1)
        ((hkind hc hcu).resolve_left hscalar.2.2) hall
  · have hnone {t : Ty} (ht : t ∈ [a, b, c]) : ¬ t.isReference := fun hr => hany ⟨t, ht, hr⟩
    exact assoc_numbers_iff (hnumber ha hau (hnone (by simp))) (hnumber hb hbu (hnone (by simp)))
      (hnumber hc hcu (hnone (by simp)))

end

end Hierarchy

end JavaLift
