import JavaLift.Proofs.Typing.Variables

namespace JavaLift

namespace Typing

def Progress.taken (p : Progress) (rest : List Nat) : Progress := { p with queue := rest, steps := p.steps + 1 }

def visits (h : Hierarchy) (items : Array Item) (useVar : Array (Option Nat)) : Nat → Progress → List (Item × Array Ty)
  | 0, _ => []
  | budget + 1, p => match p.queue with
    | [] => []
    | n :: rest => match items[n]? with
      | some item => (item, p.types) :: visits h items useVar budget (visit h items useVar item (p.taken rest))
      | none => visits h items useVar budget (p.taken rest)

def conflictRemark (clash : Nat × Ty × Ty) : Diagnostic :=
  ⟨.typeConflict, "variable " ++ toString clash.1 ++ " has incompatible types " ++ clash.2.1.render ++ " and "
    ++ clash.2.2.render⟩

/-- The conflicts that are reported are those of different variables, and these are the named ones. -/
def Report.Distinct (r : Report) : Prop := ∃ clashes : List (Nat × Ty × Ty), (clashes.map Prod.fst).Nodup ∧
  (∀ v, v ∈ r.named ↔ v ∈ clashes.map Prod.fst) ∧
    r.diagnostics.filter (·.kind = .typeConflict) = clashes.map conflictRemark

section

variable {h : Hierarchy} {items : Array Item} {useVar : Array (Option Nat)} {item : Item} {p : Progress} {n limit budget : Nat}
  {rest : List Nat} {r : Report}

/-! The run -/

theorem propagate_nil (hqueue : p.queue = []) : propagate h items useVar limit budget p = p := by
  cases budget <;> simp [propagate, hqueue]

theorem propagate_zero (hqueue : p.queue = n :: rest) :
    propagate h items useVar limit 0 p = { p with report := p.report.limit limit, steps := p.steps + 1 } := by
  simp [propagate, hqueue]

theorem propagate_succ (hqueue : p.queue = n :: rest) : propagate h items useVar limit (budget + 1) p =
    propagate h items useVar limit budget ((items[n]?).elim (p.taken rest) (visit h items useVar · (p.taken rest))) := by
  rw [propagate]
  simp only [hqueue]
  rfl

/-- What holds at first and is kept by every visit and by the limit holds in the end. -/
theorem propagate_induction (limit : Nat) {P : Progress → Prop}
    (hvisit : ∀ p n rest item, P p → p.queue = n :: rest → items[n]? = some item →
      P (visit h items useVar item (p.taken rest)))
    (hnone : ∀ p n rest, P p → p.queue = n :: rest → items[n]? = none → P (p.taken rest))
    (hlimit : ∀ p, P p → P { p with report := p.report.limit limit, steps := p.steps + 1 }) (budget : Nat) (hp : P p) :
    P (propagate h items useVar limit budget p) := by
  induction budget generalizing p with
  | zero =>
      cases hqueue : p.queue with
      | nil => rwa [propagate_nil hqueue]
      | cons n rest =>
          rw [propagate_zero hqueue]
          exact hlimit p hp
  | succ budget ih =>
      cases hqueue : p.queue with
      | nil => rwa [propagate_nil hqueue]
      | cons n rest =>
          rw [propagate_succ hqueue]
          cases hitem : items[n]? with
          | none => exact ih (hnone p n rest hp hqueue hitem)
          | some item => exact ih (hvisit p n rest item hp hqueue hitem)

/-- A run ends when there is nothing left to look at, or it reports that it stopped. -/
theorem queue_propagate (h : Hierarchy) (items : Array Item) (useVar : Array (Option Nat)) (limit budget : Nat) (p : Progress) :
    (propagate h items useVar limit budget p).queue = [] ∨
      ∃ d ∈ (propagate h items useVar limit budget p).report.diagnostics, d.kind = .typeIterationLimit := by
  induction budget generalizing p with
  | zero =>
      cases hqueue : p.queue with
      | nil =>
          rw [propagate_nil hqueue]
          exact .inl hqueue
      | cons n rest =>
          rw [propagate_zero hqueue]
          exact .inr ⟨_, List.mem_append_right _ (List.mem_singleton_self _), rfl⟩
  | succ budget ih =>
      cases hqueue : p.queue with
      | nil =>
          rw [propagate_nil hqueue]
          exact .inl hqueue
      | cons n rest =>
          rw [propagate_succ hqueue]
          exact ih _

/-! One visit -/

theorem types_visit (item : Item) (p : Progress) : (visit h items useVar item p).types =
    p.types.setIfInBounds item.var
      (h.join ((p.types[item.var]?).getD .unknown) (evaluate h useVar p.types item.source)) := by
  unfold visit
  dsimp only
  split
  · rename_i hsame
    rw [hsame]
    by_cases hlt : item.var < p.types.size
    · simp [Array.setIfInBounds, hlt]
    · rw [Array.setIfInBounds, dif_neg hlt]
  · rfl

theorem mem_queue_visit (hn : n ∈ p.queue) : n ∈ (visit h items useVar item p).queue := by
  unfold visit
  dsimp only
  split
  · exact hn
  · exact List.mem_append_left _ hn

/-- A visit reports a conflict between two types of which neither is one. -/
theorem report_visit (item : Item) (p : Progress) :
    let old := (p.types[item.var]?).getD .unknown
    let new := evaluate h useVar p.types item.source
    (visit h items useVar item p).report =
      if h.join old new = .conflict && old != .conflict && new != .conflict then p.report.conflict item.var old new
      else p.report := by
  unfold visit
  dsimp only
  split <;> rfl

/-! The reports -/

theorem Report.named_conflict (r : Report) (v : Nat) (a b : Ty) : (r.conflict v a b).named ≠ [] := by
  unfold conflict
  split
  · rename_i hmem
    intro hnil
    simp [hnil] at hmem
  · simp

theorem Report.distinct_conflict (hr : r.Distinct) (v : Nat) (a b : Ty) : (r.conflict v a b).Distinct := by
  obtain ⟨clashes, hnodup, hnamed, hdiagnostics⟩ := hr
  unfold conflict
  split
  · exact ⟨clashes, hnodup, hnamed, hdiagnostics⟩
  · rename_i hnew
    have hnew : v ∉ clashes.map Prod.fst := by
      rw [← hnamed]
      simpa using hnew
    refine ⟨clashes ++ [(v, a, b)], ?_, fun w => ?_, ?_⟩
    · rw [List.map_append, List.nodup_append]
      refine ⟨hnodup, List.nodup_singleton v, fun w hw w' hw' he => hnew ?_⟩
      have hv : w' = v := by simpa using hw'
      rwa [← hv, ← he]
    · rw [List.mem_cons, hnamed, List.map_append, List.mem_append, List.map_singleton, List.mem_singleton, or_comm]
    · rw [List.filter_append, hdiagnostics, List.map_append]
      rfl

theorem Report.distinct_limit (hr : r.Distinct) (steps : Nat) : (r.limit steps).Distinct := by
  obtain ⟨clashes, hnodup, hnamed, hdiagnostics⟩ := hr
  refine ⟨clashes, hnodup, hnamed, ?_⟩
  have hlimit : (r.limit steps).diagnostics.filter (·.kind = .typeConflict) =
      r.diagnostics.filter (·.kind = .typeConflict) := by
    rw [limit, List.filter_append]
    exact List.append_nil _
  rw [hlimit, hdiagnostics]

/-- A conflict is reported just when a variable is named. -/
theorem Report.Distinct.reported_iff (hr : r.Distinct) :
    (∃ d ∈ r.diagnostics, d.kind = .typeConflict) ↔ r.named ≠ [] := by
  obtain ⟨clashes, -, hnamed, hdiagnostics⟩ := hr
  have hexists : (∃ d ∈ r.diagnostics, d.kind = .typeConflict) ↔ clashes ≠ [] := by
    have hfilter : (∃ d ∈ r.diagnostics, d.kind = .typeConflict) ↔
        r.diagnostics.filter (·.kind = .typeConflict) ≠ [] := by
      simp [List.filter_eq_nil_iff]
    rw [hfilter, hdiagnostics, ne_eq, List.map_eq_nil_iff]
  have hnil : r.named = [] ↔ clashes = [] := by
    rw [List.eq_nil_iff_forall_not_mem, ← List.map_eq_nil_iff (f := Prod.fst), List.eq_nil_iff_forall_not_mem]
    exact forall_congr' fun v => not_congr (hnamed v)
  exact hexists.trans (not_congr hnil.symm)

theorem distinct_propagate (hp : p.report.Distinct) (limit budget : Nat) :
    (propagate h items useVar limit budget p).report.Distinct := by
  refine propagate_induction limit (P := fun p => p.report.Distinct) (fun p n rest item hp _ _ => ?_)
    (fun p n rest hp _ _ => hp) (fun p hp => Report.distinct_limit hp limit) budget hp
  rw [report_visit]
  split
  · exact Report.distinct_conflict hp _ _ _
  · exact hp

/-! The definitions of a method -/

theorem mem_itemsOf {g : Graph} {c : Chain} {w : Webs} : item ∈ itemsOf g c w ↔
    ∃ (d : Nat) (x : Def) (v b pos : Nat) (i : Insn), c.defs[d]? = some x ∧ w.defVar[d]? = some v ∧ x.site = .insn b pos ∧
      (g.block b).insns[pos]? = some i ∧ item = ⟨v, .ofInsn c b pos i⟩ := by
  unfold itemsOf
  rw [Array.mem_filterMap]
  simp only [Prod.exists, Array.mem_iff_getElem?, Array.getElem?_zip_eq_some]
  constructor
  · rintro ⟨x, v, ⟨d, hx, hv⟩, hitem⟩
    cases hsite : x.site with
    | entry => simp [hsite] at hitem
    | insn b pos =>
        simp only [hsite, Option.map_eq_some_iff] at hitem
        obtain ⟨i, hi, rfl⟩ := hitem
        exact ⟨d, x, v, b, pos, i, hx, hv, hsite, hi, rfl⟩
  · rintro ⟨d, x, v, b, pos, i, hx, hv, hsite, hi, rfl⟩
    exact ⟨x, v, ⟨d, hx, hv⟩, by simp [hsite, hi]⟩

theorem var_lt_of_mem {g : Graph} {entry : List Register}
    (hitem : item ∈ itemsOf g (Chain.build g entry) (Webs.of (Chain.build g entry))) :
    item.var < (Webs.of (Chain.build g entry)).size := by
  obtain ⟨d, x, v, b, pos, i, hx, hv, -, -, rfl⟩ := mem_itemsOf.mp hitem
  have hd := (Array.getElem?_eq_some_iff.mp hx).1
  have hclosed := Occurrence.closed_build g entry
  rw [Webs.getElem?_defVar hclosed hd] at hv
  exact Option.some.inj hv ▸ Webs.varOf_lt hclosed hd

/-- The variable that is written to the result of an instruction is the one that it defines. -/
theorem item_of_var {g : Graph} {entry : List Register} {b pos v : Nat} {i : Insn} (types : Array Ty)
    (hi : (g.block b).insns[pos]? = some i)
    (hvar : ((Occurrence.result b pos).register?
      (writeBack types (Chain.build g entry) (Webs.of (Chain.build g entry)) g) []).bind (·.var) = some v) :
    ⟨v, .ofInsn (Chain.build g entry) b pos i⟩ ∈ itemsOf g (Chain.build g entry) (Webs.of (Chain.build g entry)) := by
  obtain ⟨r, hr, hv⟩ := Option.bind_eq_some_iff.mp hvar
  have hdef : ((Occurrence.result b pos).def? g entry).isSome := by
    simp only [Occurrence.register?, insns_writeBack, hi, Option.map_some, Option.bind_some, result_typeInsn] at hr
    simp only [Occurrence.def?, hi, Option.bind_some, Chain.defOf, Option.isSome_map]
    cases hresult : i.result with
    | none =>
        rw [hresult] at hr
        cases hvar : ((Chain.build g entry).defAt? b pos).bind ((Webs.of (Chain.build g entry)).defVar[·]?) <;>
          simp [hvar] at hr
    | some => rfl
  obtain ⟨x, hx⟩ := Option.isSome_iff_exists.mp hdef
  obtain ⟨d, hd, ho⟩ := Occurrence.exists_number hx
  have hlt := (Array.getElem?_eq_some_iff.mp hd).1
  have hholds : Occurrence.Holds (Chain.build g entry) d (.result b pos) := ho ▸ Occurrence.holds_ofNumber hlt
  have hregister := register?_writeBack types hholds (by simp)
  rw [hr] at hregister
  obtain ⟨r', -, rfl⟩ := Option.map_eq_some_iff.mp hregister.symm
  obtain rfl : Webs.varOf (Chain.build g entry) d = v := Option.some.inj hv
  have hsite : x.site = .insn b pos := by
    obtain ⟨i', -, hi'⟩ := Option.bind_eq_some_iff.mp hx
    exact Chain.defOf_site hi'
  exact mem_itemsOf.mpr ⟨d, x, _, b, pos, i, hd, Webs.getElem?_defVar (Occurrence.closed_build g entry) hlt, hsite, hi, rfl⟩

/-! Settling -/

theorem types_foldl (l : List ((Ty × Ty) × Nat)) (s : Array Ty × Report) :
    (l.foldl (fun (settled, report) ((type, bound), v) =>
      let (t, conflicts) := settle type bound
      (settled.push t, if conflicts then report.conflict v type bound else report)) s).1.toList =
      s.1.toList ++ l.map fun x => (settle x.1.1 x.1.2).1 := by
  induction l generalizing s with
  | nil => simp
  | cons x l ih =>
      rw [List.foldl_cons, ih]
      simp

theorem types_settleAll (types bounds : Array Ty) (r : Report) :
    (settleAll types bounds r).1.toList = (types.zip bounds).toList.map fun (type, bound) => (settle type bound).1 := by
  unfold settleAll
  rw [types_foldl]
  have hzip : (types.zip bounds).toList.zipIdx.map (fun x => (settle x.1.1 x.1.2).1) =
      ((types.zip bounds).toList.zipIdx.map Prod.fst).map fun x => (settle x.1 x.2).1 := by
    rw [List.map_map]
    rfl
  rw [hzip, List.zipIdx_map_fst]
  simp

theorem getElem?_settleAll {types bounds : Array Ty} {v : Nat} {type bound : Ty} (htype : types[v]? = some type)
    (hbound : bounds[v]? = some bound) (r : Report) : (settleAll types bounds r).1[v]? = some (settle type bound).1 := by
  have hzip : (types.zip bounds)[v]? = some (type, bound) := Array.getElem?_zip_eq_some.mpr ⟨htype, hbound⟩
  rw [← Array.getElem?_toList, types_settleAll, List.getElem?_map, Array.getElem?_toList, hzip, Option.map_some]

theorem report_foldl {P : Report → Prop} (hconflict : ∀ r v a b, P r → P (r.conflict v a b))
    (l : List ((Ty × Ty) × Nat)) (s : Array Ty × Report) (hs : P s.2) :
    P (l.foldl (fun (settled, report) ((type, bound), v) =>
      let (t, conflicts) := settle type bound
      (settled.push t, if conflicts then report.conflict v type bound else report)) s).2 := by
  induction l generalizing s with
  | nil => exact hs
  | cons x l ih =>
      refine ih _ ?_
      dsimp only
      split
      · exact hconflict _ _ _ _ hs
      · exact hs

theorem report_settleAll {P : Report → Prop} (hconflict : ∀ r v a b, P r → P (r.conflict v a b)) (types bounds : Array Ty)
    (hr : P r) : P (settleAll types bounds r).2 := by
  unfold settleAll
  exact report_foldl hconflict _ _ hr

/-! A method -/

def started (g : Graph) (c : Chain) (entryTypes : List Ty) : Progress :=
  ⟨startTypes (Webs.of c) entryTypes, List.range (itemsOf g c (Webs.of c)).size, ⟨[], []⟩, 0⟩

def propagated (h : Hierarchy) (limit : Nat) (g : Graph) (c : Chain) (entryTypes : List Ty) : Progress :=
  propagate h (itemsOf g c (Webs.of c)) (Webs.of c).useVar limit limit (started g c entryTypes)

def demanded (h : Hierarchy) (limit : Nat) (g : Graph) (c : Chain) (returned : Ty) : Array Ty :=
  let copies := copiesOf (itemsOf g c (Webs.of c)) (Webs.of c)
  demandAll h copies (min copies.length limit) (demands h g c (Webs.of c) returned)

/-- The types and the reports of a method are those of its propagation, settled by what its uses demand. -/
theorem infer_eq (h : Hierarchy) (limit : Nat) (g : Graph) (c : Chain) (entryTypes : List Ty) (returned : Ty) :
    let done := propagated h limit g c entryTypes
    let settled := settleAll done.types (demanded h limit g c returned) done.report
    (infer h limit g c entryTypes returned).2.types = settled.1 ∧
      (infer h limit g c entryTypes returned).2.diagnostics = settled.2.diagnostics := ⟨rfl, rfl⟩

theorem size_propagated (h : Hierarchy) (limit : Nat) (g : Graph) (c : Chain) (entryTypes : List Ty) :
    (propagated h limit g c entryTypes).types.size = (Webs.of c).size :=
  (size_propagate limit limit _).trans (size_startTypes _ _)

theorem size_demanded (h : Hierarchy) (limit : Nat) (g : Graph) (c : Chain) (returned : Ty) :
    (demanded h limit g c returned).size = (Webs.of c).size :=
  (size_demandAll h _ _ _).trans (size_demands h g c _ returned)

/-- A variable's type in the end is the one that is propagated, settled by what is demanded. -/
theorem getElem?_types {c : Chain} {v : Nat} (h : Hierarchy) (limit : Nat) (g : Graph) (entryTypes : List Ty) (returned : Ty)
    (hv : v < (Webs.of c).size) : ∃ type bound, (propagated h limit g c entryTypes).types[v]? = some type ∧
      (demanded h limit g c returned)[v]? = some bound ∧
        (infer h limit g c entryTypes returned).2.types[v]? = some (settle type bound).1 := by
  have htype := Array.getElem?_eq_getElem ((size_propagated h limit g c entryTypes).symm ▸ hv)
  have hbound := Array.getElem?_eq_getElem ((size_demanded h limit g c returned).symm ▸ hv)
  exact ⟨_, _, htype, hbound, getElem?_settleAll htype hbound _⟩

end

end Typing

end JavaLift
