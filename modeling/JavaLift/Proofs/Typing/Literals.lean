import JavaLift.Proofs.Hierarchy.Join
import JavaLift.Proofs.Typing.Propagation

namespace JavaLift

namespace Ty

/-- The value is in the range of the type, if that is a boolean or takes less than a whole register. -/
def Holds (value : Int) : Ty → Prop
  | .boolean => value = 0 ∨ value = 1
  | .byte => -0x80 ≤ value ∧ value < 0x80
  | .short => -0x8000 ≤ value ∧ value < 0x8000
  | .char => 0 ≤ value ∧ value < 0x10000
  | _ => True

def Takes (value : Int) : Ty → Prop
  | .unknown => False
  | .narrow s => s.isSubset (.ofLiteral value false)
  | t => t.Holds value

variable {value : Int} {a b t : Ty} {s s' : Candidates}

theorem takes_preferred (hs : s.isSubset (.ofLiteral value false)) : (preferred s).Takes value := by
  rw [Candidates.isSubset_iff] at hs
  have hmem (k : Candidate) (hk : s.contains k) := Candidates.contains_ofLiteral value k ▸ hs k hk
  unfold preferred
  split_ifs with hint hboolean hlong hfloat hdouble hchar hshort hbyte
  · trivial
  · simpa [Takes, Holds] using hmem .boolean hboolean
  · trivial
  · trivial
  · trivial
  · simpa [Takes, Holds] using hmem .char hchar
  · simpa [Takes, Holds] using hmem .short hshort
  · simpa [Takes, Holds] using hmem .byte hbyte
  · trivial

theorem takes_widened (ha : a ∈ scalars) (hb : b ∈ scalars) (hab : a.Takes value ∨ b.Takes value) :
    (widened a b).Takes value := by
  simp only [scalars, List.mem_cons, List.not_mem_nil, or_false] at ha hb
  rcases ha with rfl | rfl | rfl | rfl | rfl | rfl | rfl | rfl | rfl | rfl <;>
    rcases hb with rfl | rfl | rfl | rfl | rfl | rfl | rfl | rfl | rfl | rfl <;>
    first
    | exact trivial
    | simp only [Takes, Holds, widened, rank?] at hab ⊢; simp; omega

theorem takes_of_candidate {k : Candidate} (ht : t ∈ scalars ∨ t.isReference) (hk : t.candidates.contains k)
    (hliteral : (Candidates.ofLiteral value false).contains k) : t.Takes value := by
  rw [Candidates.contains_ofLiteral] at hliteral
  cases t with
  | unknown => simp [scalars, isReference] at ht
  | narrow => simp [scalars, isReference] at ht
  | boolean | byte | short | char =>
      simp only [candidates, Candidates.contains_single, decide_eq_true_eq] at hk
      subst hk
      simpa [Takes, Holds] using hliteral
  | _ => trivial

theorem takes_joinCandidates (ht : t ∈ scalars ∨ t.isReference) (hst : s.isSubset (.ofLiteral value false) ∨ t.Takes value) :
    (joinCandidates s t).Takes value := by
  unfold joinCandidates
  split_ifs with hmeet hnumber
  · rcases hst with hs | ht'
    · obtain ⟨k, hk, hk'⟩ := Candidates.intersects_iff.mp hmeet
      exact takes_of_candidate ht hk' (Candidates.isSubset_iff.mp hs k hk)
    · exact ht'
  · obtain ⟨hprimitive, hnumeric⟩ := Bool.and_eq_true_iff.mp hnumber
    have hscalar : t ∈ scalars := ht.resolve_right fun hr => by cases t <;> simp_all [isPrimitive, isReference]
    exact takes_widened (Hierarchy.preferred_mem hnumeric) hscalar (hst.imp_left takes_preferred)
  · trivial

theorem takes_reference (ht : t = .conflict ∨ t.isReference) : t.Takes value := by
  rcases ht with rfl | ht
  · trivial
  · cases t <;> trivial

theorem takes_join (h : Hierarchy) (hab : a.Takes value ∨ b.Takes value) : (h.join a b).Takes value := by
  have hknown {t : Ty} (ht : t ∈ scalars ∨ t.isReference) : t ≠ .unknown ∧ ∀ s, t ≠ .narrow s := by
    constructor
    · rintro rfl
      simp [scalars, isReference] at ht
    · rintro s rfl
      simp [scalars, isReference] at ht
  have hleft {s : Candidates} {t : Ty} (ht : t ∈ scalars ∨ t.isReference) (hst : Ty.Takes value (.narrow s) ∨ t.Takes value) :
      (h.join (.narrow s) t).Takes value := by
    rw [Hierarchy.join_narrow_left (hknown ht).1 (hknown ht).2]
    exact takes_joinCandidates ht hst
  have hright {s : Candidates} {t : Ty} (ht : t ∈ scalars ∨ t.isReference) (hst : Ty.Takes value (.narrow s) ∨ t.Takes value) :
      (h.join t (.narrow s)).Takes value := by
    rw [Hierarchy.join_narrow_right (hknown ht).1 (hknown ht).2]
    exact takes_joinCandidates ht hst
  rcases a.kinds with rfl | ha | ⟨s, rfl⟩ | ha
  · rw [Hierarchy.join_unknown_left]
    exact hab.resolve_left id
  · rcases b.kinds with rfl | hb | ⟨s', rfl⟩ | hb
    · rw [Hierarchy.join_unknown_right]
      exact hab.resolve_right id
    · rw [Hierarchy.join_scalars ha hb]
      exact takes_widened ha hb hab
    · exact hright (.inl ha) hab.symm
    · rw [Hierarchy.join_scalar_reference ha hb]
      trivial
  · rcases b.kinds with rfl | hb | ⟨s', rfl⟩ | hb
    · rw [Hierarchy.join_unknown_right]
      exact hab.resolve_right id
    · exact hleft (.inl hb) hab
    · rcases Hierarchy.join_narrow_or h s s' with he | he <;> rw [he]
      · exact Candidates.isSubset_inter hab
      · trivial
    · exact hleft (.inr hb) hab
  · rcases b.kinds with rfl | hb | ⟨s', rfl⟩ | hb
    · rw [Hierarchy.join_unknown_right]
      exact hab.resolve_right id
    · rw [Hierarchy.join_reference_scalar ha hb]
      trivial
    · exact hright (.inr ha) hab.symm
    · exact takes_reference (Hierarchy.join_references ha hb)

theorem Takes.holds (ht : t.Takes value) (hknown : t.isKnown) : t.Holds value := by
  cases t <;> first | exact ht | cases hknown

theorem isKnown_preferred (s : Candidates) : (preferred s).isKnown := by
  unfold preferred
  split_ifs <;> rfl

/-- The uses choose among the kinds that hold the literal. -/
theorem holds_settle (bound : Ty) (ht : t.Takes value) : (Typing.settle t bound).1.Holds value := by
  cases t with
  | unknown => exact ht.elim
  | narrow s =>
      unfold Typing.settle Typing.settleCandidates
      dsimp only
      split
      · refine (takes_preferred ?_).holds (isKnown_preferred _)
        split
        · exact Candidates.isSubset_inter (.inl ht)
        · exact ht
      · split_ifs with hknown hmeet
        · obtain ⟨k, hk, hk'⟩ := Candidates.intersects_iff.mp hmeet
          have hkind : bound ∈ scalars ∨ bound.isReference := by
            cases bound <;> simp_all [isKnown, scalars, isReference]
          exact (takes_of_candidate hkind hk' (Candidates.isSubset_iff.mp ht k hk)).holds hknown
        · exact (takes_preferred ht).holds (isKnown_preferred s)
        · exact (takes_preferred ht).holds (isKnown_preferred s)
  | _ => exact ht

end Ty

namespace Typing

section

variable {h : Hierarchy} {items : Array Item} {useVar : Array (Option Nat)} {item : Item} {p : Progress} {n : Nat} {t : Ty}
  {value : Int}

def Taken (value : Int) (var : Nat) (types : Array Ty) : Prop := ∃ t, types[var]? = some t ∧ t.Takes value

theorem taken_visit_self (hsource : item.source = .settled t) (ht : t.Takes value) (hlt : item.var < p.types.size) :
    Taken value item.var (visit h items useVar item p).types := by
  rw [types_visit, hsource]
  exact ⟨_, Array.getElem?_setIfInBounds_self_of_lt hlt, Ty.takes_join h (.inr ht)⟩

theorem taken_visit {var : Nat} (item : Item) (hp : Taken value var p.types) :
    Taken value var (visit h items useVar item p).types := by
  obtain ⟨t, ht, htakes⟩ := hp
  rw [types_visit]
  by_cases he : item.var = var
  · subst he
    have hlt := (Array.getElem?_eq_some_iff.mp ht).1
    refine ⟨_, Array.getElem?_setIfInBounds_self_of_lt hlt, Ty.takes_join h (.inl ?_)⟩
    rwa [ht, Option.getD_some]
  · exact ⟨t, by rwa [Array.getElem?_setIfInBounds_ne he], htakes⟩

/-- Until a definition is looked at it is in the queue, and from then on its variable takes the value. -/
theorem taken_propagate (h : Hierarchy) (useVar : Array (Option Nat)) (hitem : items[n]? = some item)
    (hsource : item.source = .settled t) (ht : t.Takes value) (hlt : item.var < p.types.size) (hn : n ∈ p.queue)
    (limit budget : Nat) :
    n ∈ (propagate h items useVar limit budget p).queue ∨
      Taken value item.var (propagate h items useVar limit budget p).types := by
  refine (propagate_induction limit
    (P := fun p => item.var < p.types.size ∧ (n ∈ p.queue ∨ Taken value item.var p.types)) ?_ ?_ (fun p hp => hp) budget
    ⟨hlt, .inl hn⟩).2
  · rintro p m rest other ⟨hlt, hp⟩ hqueue hother
    refine ⟨(size_visit other (p.taken rest)).symm ▸ hlt, ?_⟩
    rcases hp with hn | hp
    · rw [hqueue] at hn
      rcases List.mem_cons.mp hn with rfl | hn
      · obtain rfl : item = other := Option.some.inj (hitem.symm.trans hother)
        exact .inr (taken_visit_self hsource ht hlt)
      · exact .inl (mem_queue_visit hn)
    · exact .inr (taken_visit other hp)
  · rintro p m rest ⟨hlt, hp⟩ hqueue hnone
    refine ⟨hlt, hp.imp_left fun hn => ?_⟩
    rw [hqueue] at hn
    refine (List.mem_cons.mp hn).resolve_left fun he => ?_
    rw [← he, hitem] at hnone
    cases hnone

/-- Where propagation was not stopped, a variable has a type that holds what any of its definitions gives it. -/
theorem holds_infer (h : Hierarchy) (limit : Nat) (g : Graph) (entry : List Register) (entryTypes : List Ty) (returned : Ty)
    (hitem : item ∈ itemsOf g (Chain.build g entry) (Webs.of (Chain.build g entry))) (hsource : item.source = .settled t)
    (ht : t.Takes value)
    (hlimit : ∀ d ∈ (infer h limit g (Chain.build g entry) entryTypes returned).2.diagnostics, d.kind ≠ .typeIterationLimit) :
    ∃ ty, (infer h limit g (Chain.build g entry) entryTypes returned).2.types[item.var]? = some ty ∧ ty.Holds value := by
  have hlt := var_lt_of_mem hitem
  obtain ⟨n, hn⟩ := Array.mem_iff_getElem?.mp hitem
  obtain ⟨type, bound, htype, -, hty⟩ := getElem?_types h limit g entryTypes returned hlt
  refine ⟨_, hty, Ty.holds_settle bound ?_⟩
  have hempty : (propagated h limit g (Chain.build g entry) entryTypes).queue = [] := by
    refine (queue_propagate h _ _ limit limit _).resolve_right ?_
    rintro ⟨d, hd, hkind⟩
    refine hlimit d ?_ hkind
    rw [(infer_eq h limit g _ entryTypes returned).2]
    refine report_settleAll (P := fun r => d ∈ r.diagnostics) (fun r v a b hr => ?_) _ _ hd
    unfold Report.conflict
    split
    · exact hr
    · exact List.mem_append_left _ hr
  have hqueued : n ∈ (started g (Chain.build g entry) entryTypes).queue :=
    List.mem_range.mpr (Array.getElem?_eq_some_iff.mp hn).1
  rcases taken_propagate h (Webs.of (Chain.build g entry)).useVar hn hsource ht
    ((size_startTypes _ entryTypes).symm ▸ hlt) hqueued limit limit with hleft | ⟨u, hu, htakes⟩
  · rw [← propagated, hempty] at hleft
    cases hleft
  · rw [← propagated, htype] at hu
    exact Option.some.inj hu ▸ htakes

/-- A literal that is assigned to a variable with the candidates of its value, or fewer, is in the range of the type that
the variable has in the end, unless propagation was stopped. -/
theorem literals_hold (h : Hierarchy) (limit : Nat) (g : Graph) (entry : List Register) (entryTypes : List Ty) (returned : Ty) :
    let (g', t) := infer h limit g (Chain.build g entry) entryTypes returned
    (∀ d ∈ t.diagnostics, d.kind ≠ .typeIterationLimit) → ∀ (b pos : Nat) (i : Insn) (value : Int) (s : Candidates),
      (g.block b).insns[pos]? = some i → i.op = .const → i.args.head? = some (.lit value (.narrow s)) →
      s.isSubset (.ofLiteral value false) → ∀ (v : Nat) (ty : Ty), t.var? g' (.result b pos) = some v →
      t.types[v]? = some ty → ty.Holds value := by
  have hgraph := (infer_spec h limit g (Chain.build g entry) entryTypes returned).1
  have hheld {item : Item} {t : Ty} {value : Int} (hitem) (hsource : item.source = .settled t) (ht : t.Takes value) :=
    holds_infer h limit g entry entryTypes returned hitem hsource ht
  generalize infer h limit g (Chain.build g entry) entryTypes returned = result at hgraph hheld
  obtain ⟨g', t⟩ := result
  dsimp only at hgraph hheld ⊢
  intro hlimit b pos i value s hi hop harg hs v ty hvar hty
  have hitem := item_of_var t.types hi (hgraph ▸ hvar)
  have hsource : TypeSource.ofInsn (Chain.build g entry) b pos i = .settled (.narrow s) := by
    simp [TypeSource.ofInsn, TypeSource.ofOp, hop, harg, Arg.type]
  obtain ⟨ty', hty', hholds⟩ := hheld hitem hsource (show Ty.Takes value (.narrow s) from hs) hlimit
  rw [hty] at hty'
  exact Option.some.inj hty' ▸ hholds

end

def returnConst (value : Int) : Graph where
  blocks := #[⟨0, [.of .const [.lit value (.narrow (.ofLiteral value false))] (some (.plain 0)) 0, .of .ret [.ofReg 0] none 1],
    [], []⟩]
  entry := 0
  tries := []

/-- The method returns a char, and the constant is one. -/
theorem literals_hold_returnConst :
    let (g', t) := infer ⟨[]⟩ 10 (returnConst 200) (Chain.build (returnConst 200) []) [] .char
    (∀ d ∈ t.diagnostics, d.kind ≠ .typeIterationLimit) ∧ t.var? g' (.result 0 0) = some 0 ∧ t.types[0]? = some .char ∧
      Ty.char.Holds 200 := by
  have hlimit : ∀ d ∈ (infer ⟨[]⟩ 10 (returnConst 200) (Chain.build (returnConst 200) []) [] .char).2.diagnostics,
      d.kind ≠ .typeIterationLimit := by decide +kernel
  have hvar : (infer ⟨[]⟩ 10 (returnConst 200) (Chain.build (returnConst 200) []) [] .char).2.var?
      (infer ⟨[]⟩ 10 (returnConst 200) (Chain.build (returnConst 200) []) [] .char).1 (.result 0 0) = some 0 := by
    decide +kernel
  have hty : (infer ⟨[]⟩ 10 (returnConst 200) (Chain.build (returnConst 200) []) [] .char).2.types[0]? = some .char := by
    decide +kernel
  exact ⟨hlimit, hvar, hty, literals_hold ⟨[]⟩ 10 (returnConst 200) [] [] .char hlimit 0 0 _ 200 _ rfl rfl rfl (by decide) 0 _
    hvar hty⟩

end Typing

end JavaLift
