import JavaLift.Proofs.Hierarchy.Join
import JavaLift.Proofs.Typing.Propagation

namespace JavaLift

namespace TypeSource

def given : TypeSource → List Ty
  | .settled t => [t]
  | .copy _ => []
  | .element _ hint => [hint]
  | .join _ types => types

end TypeSource

namespace Typing

/-- A definition is found to be in conflict, but no variable that it reads is. -/
structure Overlooked (h : Hierarchy) (useVar : Array (Option Nat)) (look : Item × Array Ty) : Prop where
  found : evaluate h useVar look.2 look.1.source = .conflict
  inputs : ∀ use ∈ look.1.source.uses, ∀ v, (useVar[use]?).join = some v → look.2[v]? ≠ some .conflict

structure Clash (h : Hierarchy) (useVar : Array (Option Nat)) (look : Item × Array Ty) : Prop where
  joined : h.join ((look.2[look.1.var]?).getD .unknown) (evaluate h useVar look.2 look.1.source) = .conflict
  before : (look.2[look.1.var]?).getD .unknown ≠ .conflict
  found : evaluate h useVar look.2 look.1.source ≠ .conflict

/-- No type that a method gives is a conflict: those of its parameters, those that definitions bring, and those that uses
demand. -/
structure Unconflicted (g : Graph) (c : Chain) (entryTypes : List Ty) (returned : Ty) : Prop where
  entry : .conflict ∉ entryTypes
  sources : ∀ item ∈ itemsOf g c (Webs.of c), .conflict ∉ item.source.given
  uses : ∀ u ∈ c.uses, ((g.block u.block).insns[u.pos]?).elim .unknown (·.demand u.path returned) ≠ .conflict

def visited (h : Hierarchy) (limit : Nat) (g : Graph) (c : Chain) (entryTypes : List Ty) : List (Item × Array Ty) :=
  visits h (itemsOf g c (Webs.of c)) (Webs.of c).useVar limit (started g c entryTypes)

section

variable {h : Hierarchy} {items : Array Item} {useVar : Array (Option Nat)} {item : Item} {p : Progress} {limit budget : Nat}
  {types bounds : Array Ty} {a b : Ty} {v : Nat}

/-! One visit and the run -/

theorem conflict_mem_visit (h : Hierarchy) (items : Array Item) (useVar : Array (Option Nat)) (hlt : item.var < p.types.size) :
    .conflict ∈ (visit h items useVar item p).types ↔
    .conflict ∈ p.types ∨ Overlooked h useVar (item, p.types) ∨ Clash h useVar (item, p.types) := by
  have hold : p.types[item.var]? = some ((p.types[item.var]?).getD .unknown) := by
    rw [Array.getElem?_eq_getElem hlt, Option.getD_some]
  have hafter := Array.getElem?_setIfInBounds_self_of_lt (a :=
    h.join ((p.types[item.var]?).getD .unknown) (evaluate h useVar p.types item.source)) hlt
  rw [types_visit]
  constructor
  · intro hmem
    obtain ⟨v, hv⟩ := Array.mem_iff_getElem?.mp hmem
    by_cases he : item.var = v
    · subst he
      have hjoined := Option.some.inj (hafter.symm.trans hv)
      by_cases hbefore : (p.types[item.var]?).getD .unknown = .conflict
      · exact .inl (Array.mem_of_getElem? (hbefore ▸ hold))
      · by_cases hfound : evaluate h useVar p.types item.source = .conflict
        · by_cases hinputs : ∀ use ∈ item.source.uses, ∀ v, (useVar[use]?).join = some v → p.types[v]? ≠ some .conflict
          · exact .inr (.inl ⟨hfound, hinputs⟩)
          · push Not at hinputs
            obtain ⟨use, -, w, -, hw⟩ := hinputs
            exact .inl (Array.mem_of_getElem? hw)
        · exact .inr (.inr ⟨hjoined, hbefore, hfound⟩)
    · rw [Array.getElem?_setIfInBounds_ne he] at hv
      exact .inl (Array.mem_of_getElem? hv)
  · rintro (hmem | hover | hclash)
    · obtain ⟨v, hv⟩ := Array.mem_iff_getElem?.mp hmem
      by_cases he : item.var = v
      · subst he
        rw [hv, Option.getD_some, Hierarchy.join_conflict_left] at hafter
        rw [hv, Option.getD_some, Hierarchy.join_conflict_left]
        exact Array.mem_of_getElem? hafter
      · exact Array.mem_of_getElem? (by rwa [Array.getElem?_setIfInBounds_ne he])
    · rw [hover.found, Hierarchy.join_conflict_right] at hafter
      rw [hover.found, Hierarchy.join_conflict_right]
      exact Array.mem_of_getElem? hafter
    · rw [hclash.joined] at hafter
      rw [hclash.joined]
      exact Array.mem_of_getElem? hafter

/-- A visit names a variable just when its definition clashes. -/
theorem named_visit (h : Hierarchy) (items : Array Item) (useVar : Array (Option Nat)) (item : Item) (p : Progress) :
    (visit h items useVar item p).report.named ≠ [] ↔
    p.report.named ≠ [] ∨ Clash h useVar (item, p.types) := by
  have hclash : Clash h useVar (item, p.types) ↔
      (h.join ((p.types[item.var]?).getD .unknown) (evaluate h useVar p.types item.source) = .conflict &&
        (p.types[item.var]?).getD .unknown != .conflict && evaluate h useVar p.types item.source != .conflict) = true := by
    simp only [Bool.and_eq_true, decide_eq_true_eq, bne_iff_ne]
    exact ⟨fun hc => ⟨⟨hc.joined, hc.before⟩, hc.found⟩, fun hc => ⟨hc.1.1, hc.1.2, hc.2⟩⟩
  rw [report_visit, hclash]
  split
  · rename_i hc
    exact iff_of_true (Report.named_conflict _ _ _ _) (.inr hc)
  · rename_i hc
    exact (or_iff_left hc).symm

/-- A run leaves a conflict just when it looks at a definition that is overlooked or clashes, and it names a variable just
when one clashes. -/
theorem conflict_mem_propagate (hvars : ∀ item ∈ items, item.var < p.types.size) :
    (.conflict ∈ (propagate h items useVar limit budget p).types ↔ .conflict ∈ p.types ∨
      ∃ look ∈ visits h items useVar budget p, Overlooked h useVar look ∨ Clash h useVar look) ∧
    ((propagate h items useVar limit budget p).report.named ≠ [] ↔ p.report.named ≠ [] ∨
      ∃ look ∈ visits h items useVar budget p, Clash h useVar look) := by
  induction budget generalizing p with
  | zero =>
      cases hqueue : p.queue with
      | nil =>
          rw [propagate_nil hqueue]
          simp [visits]
      | cons n rest =>
          rw [propagate_zero hqueue]
          simp [visits, Report.limit]
  | succ budget ih =>
      cases hqueue : p.queue with
      | nil =>
          rw [propagate_nil hqueue]
          simp [visits, hqueue]
      | cons n rest =>
          rw [propagate_succ hqueue, visits]
          simp only [hqueue]
          cases hitem : items[n]? with
          | none => exact ih (p := p.taken rest) hvars
          | some item =>
              have hlt := hvars item (Array.mem_of_getElem? hitem)
              obtain ⟨htypes, hnamed⟩ := ih (p := visit h items useVar item (p.taken rest))
                fun other hother => (size_visit item (p.taken rest)).symm ▸ hvars other hother
              have hfirst := conflict_mem_visit h items useVar (p := p.taken rest) hlt
              have hname := named_visit h items useVar item (p.taken rest)
              simp only [Option.elim_some, List.exists_mem_cons_iff]
              exact ⟨(htypes.trans (or_congr_left hfirst)).trans or_assoc, (hnamed.trans (or_congr_left hname)).trans or_assoc⟩

/-! What the uses demand -/

theorem meet_ne_conflict (ha : a ≠ .conflict) (hb : b ≠ .conflict) : h.meet a b ≠ .conflict := by
  unfold Hierarchy.meet
  split_ifs
  · exact hb
  · exact ha
  · split <;> first | exact ha | exact hb | split <;> first | exact ha | exact hb | simp

theorem conflict_not_mem_modify {f : Ty → Ty} (hf : ∀ t, t ≠ .conflict → f t ≠ .conflict) (hbounds : .conflict ∉ bounds) :
    .conflict ∉ bounds.modify v f := by
  intro hmem
  obtain ⟨w, hw⟩ := Array.mem_iff_getElem?.mp hmem
  rw [Array.getElem?_modify] at hw
  split at hw
  · obtain ⟨t, ht, hft⟩ := Option.map_eq_some_iff.mp hw
    exact hf t (fun he => hbounds (Array.mem_of_getElem? (he ▸ ht))) hft
  · exact hbounds (Array.mem_of_getElem? hw)

theorem conflict_not_mem_foldl {α : Type} {f : Array Ty → α → Array Ty} {l : List α}
    (hf : ∀ x ∈ l, ∀ types, .conflict ∉ types → .conflict ∉ f types x) (htypes : .conflict ∉ types) :
    .conflict ∉ l.foldl f types := by
  induction l generalizing types with
  | nil => exact htypes
  | cons x l ih =>
      rw [List.forall_mem_cons] at hf
      exact ih hf.2 (hf.1 types htypes)

theorem conflict_not_mem_replicate (n : Nat) : .conflict ∉ Array.replicate n Ty.unknown := fun hmem =>
  absurd (Array.mem_replicate.mp hmem).2 (by simp)

theorem conflict_not_mem_demanded {g : Graph} {c : Chain} {entryTypes : List Ty} {returned : Ty}
    (hgiven : Unconflicted g c entryTypes returned) : .conflict ∉ demanded h limit g c returned := by
  have hround (copies : List (Nat × Nat)) (bounds : Array Ty) (hbounds : .conflict ∉ bounds) :
      .conflict ∉ demandSources h copies bounds := by
    refine conflict_not_mem_foldl (fun copy _ bounds hbounds => ?_) hbounds
    refine conflict_not_mem_modify (fun t ht => meet_ne_conflict ht fun he => ?_) hbounds
    cases htarget : bounds[copy.2]? with
    | none => simp [htarget] at he
    | some bound =>
        rw [htarget, Option.getD_some] at he
        exact hbounds (Array.mem_of_getElem? (he ▸ htarget))
  have hall (copies : List (Nat × Nat)) (rounds : Nat) (bounds : Array Ty) (hbounds : .conflict ∉ bounds) :
      .conflict ∉ demandAll h copies rounds bounds := by
    induction rounds generalizing bounds with
    | zero => exact hbounds
    | succ rounds ih =>
        unfold demandAll
        dsimp only
        split
        · exact hbounds
        · exact ih _ (hround copies bounds hbounds)
  refine hall _ _ _ (conflict_not_mem_foldl (fun x hx bounds hbounds => ?_) (conflict_not_mem_replicate _))
  obtain ⟨u, id⟩ := x
  dsimp only
  split
  · have hu : u ∈ c.uses := Array.mem_toList_iff.mp ((List.mem_zipIdx hx).2.2 ▸ List.getElem_mem _)
    exact conflict_not_mem_modify (fun t ht => meet_ne_conflict ht (hgiven.uses u hu)) hbounds
  · exact hbounds

theorem settle_eq_conflict (hb : b ≠ .conflict) : (settle a b).1 = .conflict ↔ a = .conflict := by
  have hpreferred (s : Candidates) : Ty.preferred s ≠ .conflict := by
    unfold Ty.preferred
    split_ifs <;> simp
  cases a with
  | unknown =>
      refine iff_of_false ?_ (by simp)
      cases b with
      | narrow s => exact hpreferred s
      | _ => exact hb
  | narrow s =>
      refine iff_of_false ?_ (by simp)
      unfold settle settleCandidates
      dsimp only
      split
      · exact hpreferred _
      · split_ifs
        · exact hb
        · exact hpreferred s
        · exact hpreferred s
  | _ => exact Iff.rfl

/-! A method -/

variable {g : Graph} {c : Chain} {entry : List Register} {entryTypes : List Ty} {returned : Ty} {look : Item × Array Ty}

theorem conflict_not_mem_started (hgiven : Unconflicted g c entryTypes returned) :
    .conflict ∉ (started g c entryTypes).types := by
  refine conflict_not_mem_foldl (fun x hx types htypes hmem => ?_) (conflict_not_mem_replicate _)
  obtain ⟨t, v⟩ := x
  have ht : t ≠ .conflict := fun he => hgiven.entry (he ▸ (List.of_mem_zip hx).1)
  rcases Array.mem_or_eq_of_mem_setIfInBounds hmem with hmem | he
  · exact htypes hmem
  · exact ht he.symm

/-- A variable ends in conflict just when a definition is looked at that is overlooked or clashes. -/
theorem conflict_mem_types (h : Hierarchy) (limit : Nat) (hgiven : Unconflicted g (Chain.build g entry) entryTypes returned) :
    .conflict ∈ (infer h limit g (Chain.build g entry) entryTypes returned).2.types ↔
      ∃ look ∈ visited h limit g (Chain.build g entry) entryTypes,
        Overlooked h (Webs.of (Chain.build g entry)).useVar look ∨ Clash h (Webs.of (Chain.build g entry)).useVar look := by
  have hsettled : .conflict ∈ (infer h limit g (Chain.build g entry) entryTypes returned).2.types ↔
      .conflict ∈ (propagated h limit g (Chain.build g entry) entryTypes).types := by
    have hsize := (infer_spec h limit g (Chain.build g entry) entryTypes returned).2.1
    have hspec {v : Nat} (hv : v < (Webs.of (Chain.build g entry)).size) :
        (infer h limit g (Chain.build g entry) entryTypes returned).2.types[v]? = some .conflict ↔
          (propagated h limit g (Chain.build g entry) entryTypes).types[v]? = some .conflict := by
      obtain ⟨type, bound, htype, hbound, hty⟩ := getElem?_types h limit g entryTypes returned hv
      rw [htype, hty, Option.some.injEq, Option.some.injEq]
      exact settle_eq_conflict fun he => conflict_not_mem_demanded hgiven (Array.mem_of_getElem? (he ▸ hbound))
    simp only [Array.mem_iff_getElem?]
    refine exists_congr fun v => ⟨fun hv => (hspec ?_).mp hv, fun hv => (hspec ?_).mpr hv⟩
    · exact hsize ▸ (Array.getElem?_eq_some_iff.mp hv).1
    · exact size_propagated h limit g _ entryTypes ▸ (Array.getElem?_eq_some_iff.mp hv).1
  have hvars : ∀ item ∈ itemsOf g (Chain.build g entry) (Webs.of (Chain.build g entry)),
      item.var < (started g (Chain.build g entry) entryTypes).types.size := fun item hitem =>
    (size_startTypes _ entryTypes).symm ▸ var_lt_of_mem hitem
  rw [hsettled, propagated, (conflict_mem_propagate hvars).1]
  exact or_iff_right (conflict_not_mem_started hgiven)

theorem mem_items_of_visits (hlook : look ∈ visits h items useVar budget p) : look.1 ∈ items := by
  induction budget generalizing p with
  | zero => cases hlook
  | succ budget ih =>
      rw [visits] at hlook
      split at hlook
      · cases hlook
      · split at hlook
        · rename_i item hitem
          rcases List.mem_cons.mp hlook with rfl | hlook
          · exact Array.mem_of_getElem? hitem
          · exact ih hlook
        · exact ih hlook

/-- What a use reads is known only from its variable. -/
theorem exists_var_of_read {use : Nat} {t : Ty} (ht : ((useVar[use]?).join.bind fun v => types[v]?).getD .unknown = t)
    (hknown : t ≠ .unknown) : ∃ v, (useVar[use]?).join = some v ∧ types[v]? = some t := by
  cases hread : (useVar[use]?).join.bind fun v => types[v]? with
  | none =>
      rw [hread, Option.getD_none] at ht
      exact absurd ht.symm hknown
  | some u =>
      rw [hread, Option.getD_some] at ht
      exact ht ▸ Option.bind_eq_some_iff.mp hread

/-- Only the join of several inputs is overlooked, and the element of an array of conflicts. -/
theorem Overlooked.source (hover : Overlooked h useVar look) (hgiven : .conflict ∉ look.1.source.given) :
    (∃ uses types, look.1.source = .join uses types) ∨
      ∃ array hint v, look.1.source = .element array hint ∧ (useVar[array]?).join = some v ∧
        look.2[v]? = some (.array .conflict) := by
  obtain ⟨hfound, hinputs⟩ := hover
  obtain ⟨⟨var, source⟩, types⟩ := look
  cases source with
  | settled t => exact absurd (List.mem_singleton.mpr hfound.symm) hgiven
  | join uses fixed => exact .inl ⟨uses, fixed, rfl⟩
  | copy use =>
      obtain ⟨v, hv, hconflict⟩ := exists_var_of_read hfound (by simp)
      exact absurd hconflict (hinputs use (List.mem_singleton_self use) v hv)
  | element array hint =>
      have hhint : hint ≠ .conflict := fun he => hgiven (he ▸ List.mem_singleton_self hint)
      dsimp only [evaluate] at hfound
      split at hfound
      · rename_i t hread
        obtain ⟨v, hv, hty⟩ := exists_var_of_read hread (by simp)
        refine .inr ⟨array, hint, v, rfl, hv, ?_⟩
        split at hfound
        · split at hfound
          · exact hfound ▸ hty
          · exact absurd hfound hhint
        · exact hfound ▸ hty
      · exact absurd hfound hhint

/-- Conflicts are reported at most once for each variable. That a method with a variable in conflict reports one at all
holds just when it reports one if it overlooks a definition, and all that it overlooks are joins of several inputs and
elements of arrays of conflicts. -/
theorem conflicts_reported_iff (h : Hierarchy) (limit : Nat) (g : Graph) (entry : List Register) (entryTypes : List Ty)
    (returned : Ty) (hgiven : Unconflicted g (Chain.build g entry) entryTypes returned) :
    let c := Chain.build g entry
    let t := (infer h limit g c entryTypes returned).2
    (∃ clashes : List (Nat × Ty × Ty), (clashes.map Prod.fst).Nodup ∧
      t.diagnostics.filter (·.kind = .typeConflict) = clashes.map conflictRemark) ∧
    ((.conflict ∈ t.types → ∃ d ∈ t.diagnostics, d.kind = .typeConflict) ↔
      ((∃ look ∈ visited h limit g c entryTypes, Overlooked h (Webs.of c).useVar look) →
        ∃ d ∈ t.diagnostics, d.kind = .typeConflict)) ∧
    ∀ look ∈ visited h limit g c entryTypes, Overlooked h (Webs.of c).useVar look →
      (∃ uses types, look.1.source = .join uses types) ∨
        ∃ array hint v, look.1.source = .element array hint ∧ ((Webs.of c).useVar[array]?).join = some v ∧
          look.2[v]? = some (.array .conflict) := by
  intro c t
  have hdistinct : (settleAll (propagated h limit g c entryTypes).types (demanded h limit g c returned)
      (propagated h limit g c entryTypes).report).2.Distinct :=
    report_settleAll (P := Report.Distinct) (fun r v a b hr => Report.distinct_conflict hr v a b) _ _
      (distinct_propagate ⟨[], List.nodup_nil, by simp [started], rfl⟩ limit limit)
  have hreported : (∃ look ∈ visited h limit g c entryTypes, Clash h (Webs.of c).useVar look) →
      ∃ d ∈ t.diagnostics, d.kind = .typeConflict := by
    intro hclash
    have hvars : ∀ item ∈ itemsOf g c (Webs.of c), item.var < (started g c entryTypes).types.size := fun item hitem =>
      (size_startTypes _ entryTypes).symm ▸ var_lt_of_mem hitem
    refine hdistinct.reported_iff.mpr (report_settleAll (P := fun r => r.named ≠ [])
      (fun r v a b _ => Report.named_conflict r v a b) _ _ ?_)
    exact (conflict_mem_propagate hvars).2.mpr (.inr hclash)
  have hconflict := conflict_mem_types h limit hgiven
  refine ⟨?_, ⟨fun hall hover => ?_, fun hall hmem => ?_⟩, fun look hlook hover => ?_⟩
  · obtain ⟨clashes, hnodup, -, hdiagnostics⟩ := hdistinct
    exact ⟨clashes, hnodup, hdiagnostics⟩
  · obtain ⟨look, hlook, hover⟩ := hover
    exact hall (hconflict.mpr ⟨look, hlook, .inl hover⟩)
  · obtain ⟨look, hlook, hover | hclash⟩ := hconflict.mp hmem
    · exact hall ⟨look, hlook, hover⟩
    · exact hreported ⟨look, hlook, hclash⟩
  · exact hover.source (hgiven.sources _ (mem_items_of_visits hlook))

end

def eitherConst : Graph where
  blocks := #[⟨0, [.of (.constString "") [] (some (.plain 0)) 0, .of (.jumpIf .eq 3) [.ofReg 1] none 1], [2, 1], []⟩,
    ⟨2, [.of .const [.lit 5 .int] (some (.plain 0)) 2], [2], []⟩, ⟨3, [.of .ret [.ofReg 0] none 3], [], []⟩]
  entry := 0
  tries := []

/-- The two definitions clash, and nothing is overlooked. -/
theorem conflicts_reported_iff_eitherConst :
    let c := Chain.build eitherConst [.plain 1]
    let t := (infer ⟨[]⟩ 10 eitherConst c [.int] (.object Ty.objectClass)).2
    Unconflicted eitherConst c [.int] (.object Ty.objectClass) ∧ .conflict ∈ t.types ∧
      ∃ d ∈ t.diagnostics, d.kind = .typeConflict := by
  have hgiven : Unconflicted eitherConst (Chain.build eitherConst [.plain 1]) [.int] (.object Ty.objectClass) :=
    ⟨by decide +kernel, by decide +kernel, by decide +kernel⟩
  have hconflict : .conflict ∈
      (infer ⟨[]⟩ 10 eitherConst (Chain.build eitherConst [.plain 1]) [.int] (.object Ty.objectClass)).2.types := by
    decide +kernel
  have hsettled : ∀ look ∈ visited ⟨[]⟩ 10 eitherConst (Chain.build eitherConst [.plain 1]) [.int],
      (match look.1.source with | .settled _ => true | _ => false) = true := by decide +kernel
  obtain ⟨-, hreported, hsources⟩ := conflicts_reported_iff ⟨[]⟩ 10 eitherConst [.plain 1] [.int] _ hgiven
  refine ⟨hgiven, hconflict, hreported.mpr ?_ hconflict⟩
  -- Both definitions bring their types themselves, so nothing is overlooked.
  rintro ⟨look, hlook, hover⟩
  have hsource := hsettled look hlook
  rcases hsources look hlook hover with ⟨uses, types, he⟩ | ⟨array, hint, v, he, -⟩ <;> simp [he] at hsource

def loadString : Graph where
  blocks := #[⟨0, [.of .move [.ofReg 0] (some ⟨1, false, .narrow .narrowIntegral, none⟩) 0, .of .ret [] none 1], [], []⟩]
  entry := 0
  tries := []

/-- The variable ends in conflict, and nothing is reported. -/
theorem not_reported_loadString :
    let c := Chain.build loadString [.plain 0]
    let t := (infer ⟨[]⟩ 10 loadString c [.object Ty.stringClass] .void).2
    Unconflicted loadString c [.object Ty.stringClass] .void ∧ .conflict ∈ t.types ∧
      ¬ ∃ d ∈ t.diagnostics, d.kind = .typeConflict := by
  refine ⟨⟨by decide +kernel, by decide +kernel, by decide +kernel⟩, by decide +kernel, by decide +kernel⟩

end Typing

end JavaLift
