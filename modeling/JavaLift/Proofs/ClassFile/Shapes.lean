import JavaLift.Proofs.ClassFile.Effects

namespace JavaLift.ClassFile

def shapeAt (shapes : Array (Option Shape)) (i : Nat) : Option Shape := shapes[i]?.join

def unmet (shapes : Array (Option Shape)) : Nat := shapes.toList.count none

variable {c : Context} {ops : Array RawOp} {shapes : Array (Option Shape)} {r r' : Reached} {s t : Shape} {i j : Nat}

theorem shapeAt_setIfInBounds (hi : i < shapes.size) (j : Nat) :
    shapeAt (shapes.setIfInBounds i (some s)) j = if i = j then some s else shapeAt shapes j := by
  unfold shapeAt
  rw [Array.getElem?_setIfInBounds]
  by_cases hij : i = j
  · subst hij
    simp [hi]
  · simp [hij]

theorem lt_size_of_shapeAt (h : shapeAt shapes i = some s) : i < shapes.size := by
  by_contra hi
  rw [shapeAt, Array.getElem?_eq_none (Nat.not_lt.mp hi)] at h
  cases h

theorem unmet_setIfInBounds (hi : i < shapes.size) (hnone : shapeAt shapes i = none) :
    unmet (shapes.setIfInBounds i (some s)) + 1 = unmet shapes := by
  have hlt : i < shapes.toList.length := by simpa using hi
  have hget : shapes.toList[i] = none := by simpa [shapeAt, hi] using hnone
  have hmem : 0 < shapes.toList.count none := List.count_pos_iff.mpr (hget ▸ List.getElem_mem _)
  rw [unmet, Array.toList_setIfInBounds, List.count_set hlt, hget, unmet]
  exact Nat.sub_add_cancel hmem

theorem indexOf_ok {target source : Nat} (h : indexOf ops target source = .ok i) :
    ∃ op, ops[i]? = some op ∧ op.offset = target := by
  unfold indexOf at h
  split at h
  · rename_i k hfind
    cases h
    obtain ⟨hk, hoffset, -⟩ := Array.findIdx?_eq_some_iff_getElem.mp hfind
    exact ⟨ops[i], Array.getElem?_eq_getElem hk, by simpa using hoffset⟩
  · cases h

/-- What it means to have come to some instructions with a shape. -/
structure Visited (next : List Nat) (t : Shape) (r r' : Reached) : Prop where
  size : r'.shapes.size = r.shapes.size
  keeps : ∀ j s, shapeAt r.shapes j = some s → shapeAt r'.shapes j = some s
  given : ∀ j ∈ next, shapeAt r'.shapes j = some t
  fresh : ∀ j s, shapeAt r'.shapes j = some s → shapeAt r.shapes j = some s ∨ j ∈ r'.work ∧ j ∈ next ∧ s = t
  work : r.work ⊆ r'.work
  added : ∀ j ∈ r'.work, j ∈ r.work ∨ j ∈ next
  count : r'.work.length + unmet r'.shapes = r.work.length + unmet r.shapes

theorem Visited.refl (h : shapeAt r.shapes i = some t) : Visited [i] t r r where
  size := rfl
  keeps := fun _ _ hs => hs
  given := by simpa using h
  fresh := fun _ _ hs => .inl hs
  work := List.Subset.refl _
  added := fun _ hj => .inl hj
  count := rfl

theorem Visited.cons {next : List Nat} {r'' : Reached} (h : Visited [i] t r r') (h' : Visited next t r' r'') :
    Visited (i :: next) t r r'' where
  size := h'.size.trans h.size
  keeps := fun j s hs => h'.keeps j s (h.keeps j s hs)
  given := by
    rintro j hj
    rcases List.mem_cons.mp hj with rfl | hj
    · exact h'.keeps j t (h.given j (List.mem_singleton_self j))
    · exact h'.given j hj
  fresh := by
    intro j s hs
    rcases h'.fresh j s hs with hs | ⟨hwork, hj, rfl⟩
    · rcases h.fresh j s hs with hs | ⟨hwork, hj, rfl⟩
      · exact .inl hs
      · exact .inr ⟨h'.work hwork, List.mem_cons.mpr (.inl (List.mem_singleton.mp hj)), rfl⟩
    · exact .inr ⟨hwork, List.mem_cons_of_mem _ hj, rfl⟩
  work := fun j hj => h'.work (h.work hj)
  added := by
    intro j hj
    rcases h'.added j hj with hj | hj
    · rcases h.added j hj with hj | hj
      · exact .inl hj
      · exact .inr (List.mem_cons.mpr (.inl (List.mem_singleton.mp hj)))
    · exact .inr (List.mem_cons_of_mem _ hj)
  count := h'.count.trans h.count

theorem visit_visited (hi : i < r.shapes.size) (h : r.visit ops t i = .ok r') : Visited [i] t r r' := by
  unfold Reached.visit at h
  split at h
  · rename_i known hknown
    split at h
    · rename_i heq
      cases h
      exact .refl (by rw [shapeAt, hknown, heq]; rfl)
    · cases h
  · rename_i hnew
    cases h
    have hnone : shapeAt r.shapes i = none := by
      cases hshape : shapeAt r.shapes i with
      | none => rfl
      | some known => exact (hnew known (Option.join_eq_some_iff.mp hshape)).elim
    have hset := @shapeAt_setIfInBounds _ t _ hi
    refine ⟨Array.size_setIfInBounds, ?_, ?_, ?_, ?_, ?_, ?_⟩
    · intro j s hs
      have hij : i ≠ j := by
        rintro rfl
        rw [hnone] at hs
        cases hs
      rw [hset, if_neg hij, hs]
    · intro j hj
      rw [hset, if_pos (List.mem_singleton.mp hj).symm]
    · intro j s hs
      rw [hset] at hs
      by_cases hij : i = j
      · rw [if_pos hij, Option.some.injEq] at hs
        exact .inr ⟨hij ▸ List.mem_cons_self, List.mem_singleton.mpr hij.symm, hs.symm⟩
      · rw [if_neg hij] at hs
        exact .inl hs
    · exact List.subset_cons_self _ _
    · intro j hj
      rcases List.mem_cons.mp hj with rfl | hj
      · exact .inr (List.mem_singleton_self j)
      · exact .inl hj
    · have hcount := unmet_setIfInBounds (s := t) hi hnone
      simp only [List.length_cons]
      omega

theorem visits_visited {next : List Nat} (hnext : ∀ j ∈ next, j < r.shapes.size)
    (h : next.foldlM (Reached.visit ops t) r = .ok r') : Visited next t r r' := by
  induction next generalizing r with
  | nil =>
      cases h
      exact ⟨rfl, fun _ _ hs => hs, nofun, fun _ _ hs => .inl hs, List.Subset.refl _, fun _ hj => .inl hj, rfl⟩
  | cons i next ih =>
      rw [List.forall_mem_cons] at hnext
      rw [List.foldlM_cons] at h
      obtain ⟨r₁, hvisit, h⟩ := bind_eq_ok.mp h
      have hi := visit_visited hnext.1 hvisit
      exact hi.cons (ih (fun j hj => hi.size ▸ hnext.2 j hj) h)

theorem successors_ok {op : RawOp} {e : Effect} {next : List Nat} (h : successors ops i op e = .ok next) :
    (e.falls = true → i + 1 < ops.size ∧ i + 1 ∈ next) ∧
      (∀ target ∈ e.targets, ∃ j ∈ next, ∃ op', ops[j]? = some op' ∧ op'.offset = target) ∧
      ∀ j ∈ next, e.falls = true ∧ j = i + 1 ∨ ∃ op', ops[j]? = some op' ∧ op'.offset ∈ e.targets := by
  unfold successors at h
  by_cases hend : e.falls = true ∧ ops.size ≤ i + 1
  · rw [if_pos hend] at h
    cases h
  · rw [if_neg hend] at h
    obtain ⟨targets, htargets, h⟩ := bind_eq_ok.mp h
    have hmem : ∀ j, j ∈ next ↔ e.falls = true ∧ j = i + 1 ∨ j ∈ targets := by
      intro j
      cases h
      by_cases hfalls : e.falls = true
      · simp [hfalls]
      · simp [hfalls]
    refine ⟨fun hfalls => ⟨by simpa [hfalls] using hend, (hmem _).mpr (.inl ⟨hfalls, rfl⟩)⟩, ?_, ?_⟩
    · intro target htarget
      obtain ⟨j, hj, hindex⟩ := exists_of_mem_of_mapM htargets htarget
      exact ⟨j, (hmem j).mpr (.inr hj), indexOf_ok hindex⟩
    · intro j hj
      rcases (hmem j).mp hj with hj | hj
      · exact .inl hj
      · obtain ⟨target, htarget, hindex⟩ := exists_of_mem_mapM htargets hj
        obtain ⟨op', hop', rfl⟩ := indexOf_ok hindex
        exact .inr ⟨op', hop', htarget⟩

theorem lt_size_of_successors {op : RawOp} {e : Effect} {next : List Nat} (h : successors ops i op e = .ok next) :
    ∀ j ∈ next, j < ops.size := by
  obtain ⟨hfalls, -, hnext⟩ := successors_ok h
  intro j hj
  rcases hnext j hj with ⟨htrue, rfl⟩ | ⟨op', hop', -⟩
  · exact (hfalls htrue).1
  · exact (Array.getElem?_eq_some_iff.mp hop').1

/-- An instruction leads on: from its shape the step goes well, and these come after it with the shape that is left. -/
def Leads (c : Context) (ops : Array RawOp) (i : Nat) (s : Shape) (next : List Nat) (t : Shape) : Prop :=
  ∃ op e, ops[i]? = some op ∧ step c op s = .ok (e, t) ∧ successors ops i op e = .ok next

def Settled (c : Context) (ops : Array RawOp) (shapes : Array (Option Shape)) (i : Nat) (s : Shape) : Prop :=
  ∃ next t, Leads c ops i s next t ∧ ∀ j ∈ next, shapeAt shapes j = some t

theorem Settled.mono {shapes' : Array (Option Shape)} (h : Settled c ops shapes i s)
    (hkeeps : ∀ j s, shapeAt shapes j = some s → shapeAt shapes' j = some s) : Settled c ops shapes' i s := by
  obtain ⟨next, t, hleads, hnext⟩ := h
  exact ⟨next, t, hleads, fun j hj => hkeeps j t (hnext j hj)⟩

theorem advance_ok (hsize : r.shapes.size = ops.size) (hs : shapeAt r.shapes i = some s)
    (h : r.advance c ops i = .ok r') : ∃ next t, Leads c ops i s next t ∧ Visited next t r r' := by
  have hi : i < ops.size := hsize ▸ lt_size_of_shapeAt hs
  have hshape : r.shapes[i]?.join = some s := hs
  unfold Reached.advance at h
  rw [Array.getElem?_eq_getElem hi, hshape] at h
  obtain ⟨⟨e, t⟩, hstep, h⟩ := bind_eq_ok.mp h
  obtain ⟨next, hnext, h⟩ := bind_eq_ok.mp h
  refine ⟨next, t, ⟨ops[i], e, Array.getElem?_eq_getElem hi, hstep, hnext⟩, ?_⟩
  exact visits_visited (fun j hj => hsize ▸ lt_size_of_successors hnext j hj) h

/-- What holds between two rounds. The property is one of all instructions and shapes that can be reached. -/
structure Reached.Sound (c : Context) (ops : Array RawOp) (P : Nat → Shape → Prop) (r : Reached) : Prop where
  size : r.shapes.size = ops.size
  shaped : ∀ i ∈ r.work, ∃ s, shapeAt r.shapes i = some s
  settled : ∀ i s, shapeAt r.shapes i = some s → i ∈ r.work ∨ Settled c ops r.shapes i s
  met : ∀ i s, shapeAt r.shapes i = some s → P i s

variable {P : Nat → Shape → Prop}

theorem Reached.Sound.advance {rest : List Nat} (hsound : Sound c ops P ⟨shapes, i :: rest⟩)
    (hclosed : ∀ i s next t, P i s → Leads c ops i s next t → ∀ j ∈ next, P j t)
    (h : Reached.advance c ops ⟨shapes, rest⟩ i = .ok r') :
    Sound c ops P r' ∧ r'.work.length + unmet r'.shapes = rest.length + unmet shapes ∧
      ∀ j s, shapeAt shapes j = some s → shapeAt r'.shapes j = some s := by
  obtain ⟨s, hs⟩ := hsound.shaped i List.mem_cons_self
  obtain ⟨next, t, hleads, hvisited⟩ := advance_ok (r := ⟨shapes, rest⟩) hsound.size hs h
  refine ⟨⟨hvisited.size.trans hsound.size, ?_, ?_, ?_⟩, hvisited.count, hvisited.keeps⟩
  · intro j hj
    rcases hvisited.added j hj with hj | hj
    · obtain ⟨u, hu⟩ := hsound.shaped j (List.mem_cons_of_mem _ hj)
      exact ⟨u, hvisited.keeps j u hu⟩
    · exact ⟨t, hvisited.given j hj⟩
  · intro j u hu
    rcases hvisited.fresh j u hu with hold | ⟨hwork, -, -⟩
    · rcases hsound.settled j u hold with hj | hsettled
      · rcases List.mem_cons.mp hj with rfl | hj
        · obtain rfl : s = u := Option.some.inj (hs.symm.trans hold)
          exact .inr ⟨next, t, hleads, hvisited.given⟩
        · exact .inl (hvisited.work hj)
      · exact .inr (hsettled.mono hvisited.keeps)
    · exact .inl hwork
  · intro j u hu
    rcases hvisited.fresh j u hu with hold | ⟨-, hj, rfl⟩
    · exact hsound.met j u hold
    · exact hclosed i s next u (hsound.met i s hs) hleads j hj

theorem Reached.Sound.close {rounds : Nat} (hsound : Sound c ops P r)
    (hclosed : ∀ i s next t, P i s → Leads c ops i s next t → ∀ j ∈ next, P j t)
    (hrounds : r.work.length + unmet r.shapes ≤ rounds) (h : r.close c ops rounds = .ok r') :
    (∀ i s, shapeAt r'.shapes i = some s → Settled c ops r'.shapes i s ∧ P i s) ∧ r'.shapes.size = ops.size ∧
      ∀ j s, shapeAt r.shapes j = some s → shapeAt r'.shapes j = some s := by
  induction rounds generalizing r with
  | zero =>
      cases h
      have hwork : r'.work = [] := List.length_eq_zero_iff.mp (by omega)
      refine ⟨fun i s hs => ⟨?_, hsound.met i s hs⟩, hsound.size, fun _ _ hs => hs⟩
      exact (hsound.settled i s hs).resolve_left (hwork ▸ List.not_mem_nil)
  | succ rounds ih =>
      obtain ⟨shapes, work⟩ := r
      cases work with
      | nil =>
          cases h
          refine ⟨fun i s hs => ⟨?_, hsound.met i s hs⟩, hsound.size, fun _ _ hs => hs⟩
          exact (hsound.settled i s hs).resolve_left List.not_mem_nil
      | cons i rest =>
          rw [Reached.close] at h
          dsimp only at h
          split at h
          · rename_i r₁ hadvance
            obtain ⟨hsound₁, hcount, hkeeps⟩ := hsound.advance hclosed hadvance
            simp only [List.length_cons] at hrounds
            obtain ⟨hsettled, hsize, hkeeps'⟩ := ih hsound₁ (by omega) h
            exact ⟨hsettled, hsize, fun j s hs => hkeeps' j s (hkeeps j s hs)⟩
          · cases h

/-- What it means to have put the exception on the stack at some targets. -/
structure Seeded (ops : Array RawOp) (targets : List Nat) (r r' : Reached) : Prop where
  size : r'.shapes.size = r.shapes.size
  length : r'.work.length = r.work.length + targets.length
  given : ∀ target ∈ targets, ∃ i op, ops[i]? = some op ∧ op.offset = target ∧ shapeAt r'.shapes i = some [.one]
  keeps : ∀ i s, shapeAt r.shapes i = some s → shapeAt r'.shapes i = some s ∨
    shapeAt r'.shapes i = some [.one] ∧ ∃ op, ops[i]? = some op ∧ op.offset ∈ targets
  fresh : ∀ i s, shapeAt r'.shapes i = some s → shapeAt r.shapes i = some s ∨
    i ∈ r'.work ∧ s = [.one] ∧ ∃ op, ops[i]? = some op ∧ op.offset ∈ targets
  work : r.work ⊆ r'.work
  shaped : ∀ i ∈ r'.work, i ∈ r.work ∨ shapeAt r'.shapes i = some [.one]

theorem seeded_one {op : RawOp} (hsize : r.shapes.size = ops.size) (hop : ops[i]? = some op) :
    Seeded ops [op.offset] r ⟨r.shapes.setIfInBounds i (some [.one]), i :: r.work⟩ := by
  have hi : i < r.shapes.size := hsize ▸ (Array.getElem?_eq_some_iff.mp hop).1
  have hset := @shapeAt_setIfInBounds _ [.one] _ hi
  have hseeded : ∃ op', ops[i]? = some op' ∧ op'.offset ∈ [op.offset] := ⟨op, hop, List.mem_singleton_self _⟩
  refine ⟨Array.size_setIfInBounds, rfl, ?_, ?_, ?_, List.subset_cons_self _ _, ?_⟩
  · intro target htarget
    exact ⟨i, op, hop, (List.mem_singleton.mp htarget).symm, by rw [hset, if_pos rfl]⟩
  · intro j s hs
    rw [hset]
    by_cases hij : i = j
    · rw [if_pos hij]
      exact .inr ⟨rfl, hij ▸ hseeded⟩
    · rw [if_neg hij]
      exact .inl hs
  · intro j s hs
    rw [hset] at hs
    by_cases hij : i = j
    · rw [if_pos hij, Option.some.injEq] at hs
      exact .inr ⟨hij ▸ List.mem_cons_self, hs.symm, hij ▸ hseeded⟩
    · rw [if_neg hij] at hs
      exact .inl hs
  · intro j hj
    rcases List.mem_cons.mp hj with rfl | hj
    · exact .inr (by rw [hset, if_pos rfl])
    · exact .inl hj

theorem Seeded.cons {target : Nat} {targets : List Nat} {r'' : Reached} (h : Seeded ops [target] r r')
    (h' : Seeded ops targets r' r'') : Seeded ops (target :: targets) r r'' := by
  have hhead {i : Nat} : (∃ op, ops[i]? = some op ∧ op.offset ∈ [target]) →
      ∃ op, ops[i]? = some op ∧ op.offset ∈ target :: targets :=
    fun ⟨op, hop, hmem⟩ => ⟨op, hop, List.mem_cons.mpr (.inl (List.mem_singleton.mp hmem))⟩
  have htail {i : Nat} : (∃ op, ops[i]? = some op ∧ op.offset ∈ targets) →
      ∃ op, ops[i]? = some op ∧ op.offset ∈ target :: targets :=
    fun ⟨op, hop, hmem⟩ => ⟨op, hop, List.mem_cons_of_mem _ hmem⟩
  have hone {i : Nat} (hi : shapeAt r'.shapes i = some [.one]) : shapeAt r''.shapes i = some [.one] := by
    rcases h'.keeps i _ hi with hi | ⟨hi, -⟩
    · exact hi
    · exact hi
  refine ⟨h'.size.trans h.size, ?_, ?_, ?_, ?_, fun i hi => h'.work (h.work hi), ?_⟩
  · have hlength := h.length
    rw [List.length_singleton] at hlength
    rw [h'.length, hlength, List.length_cons]
    omega
  · intro t ht
    rcases List.mem_cons.mp ht with rfl | ht
    · obtain ⟨i, op, hop, hoffset, hi⟩ := h.given t (List.mem_singleton_self t)
      exact ⟨i, op, hop, hoffset, hone hi⟩
    · exact h'.given t ht
  · intro i s hs
    rcases h.keeps i s hs with hs | ⟨hs, hop⟩
    · rcases h'.keeps i s hs with hs | ⟨hs, hop⟩
      · exact .inl hs
      · exact .inr ⟨hs, htail hop⟩
    · exact .inr ⟨hone hs, hhead hop⟩
  · intro i s hs
    rcases h'.fresh i s hs with hs | ⟨hwork, hone, hop⟩
    · rcases h.fresh i s hs with hs | ⟨hwork, hone, hop⟩
      · exact .inl hs
      · exact .inr ⟨h'.work hwork, hone, hhead hop⟩
    · exact .inr ⟨hwork, hone, htail hop⟩
  · intro i hi
    rcases h'.shaped i hi with hi | hi
    · rcases h.shaped i hi with hi | hi
      · exact .inl hi
      · exact .inr (hone hi)
    · exact .inr hi

variable {handlers : Handlers}

theorem seeds_seeded (hsize : r.shapes.size = ops.size) (h : handlers.foldlM (fun (r : Reached) (target, _) => do
      let i ← indexOf ops target target
      return Reached.mk (r.shapes.setIfInBounds i (some [.one])) (i :: r.work)) r = .ok r') :
    Seeded ops (handlers.map Prod.fst) r r' := by
  induction handlers generalizing r with
  | nil =>
      cases h
      exact ⟨rfl, rfl, nofun, fun _ _ hs => .inl hs, fun _ _ hs => .inl hs, List.Subset.refl _, fun _ hi => .inl hi⟩
  | cons handler handlers ih =>
      rw [List.foldlM_cons] at h
      obtain ⟨r₁, hseed, h⟩ := bind_eq_ok.mp h
      obtain ⟨i, hindex, hseed⟩ := bind_eq_ok.mp hseed
      cases hseed
      obtain ⟨op, hop, hoffset⟩ := indexOf_ok hindex
      have hone := seeded_one (r := r) hsize hop
      rw [List.map_cons, ← hoffset]
      exact hone.cons (ih (hone.size.trans hsize) h)

/-- The instructions at which the search begins, with their shapes: the first one with an empty stack, and those at
handlers with the exception. -/
def Begins (ops : Array RawOp) (handlers : Handlers) (i : Nat) (s : Shape) : Prop :=
  i = 0 ∧ s = [] ∨ s = [.one] ∧ ∃ op, ops[i]? = some op ∧ op.offset ∈ handlers.map Prod.fst

theorem shapeAt_entry (hops : 0 < ops.size) :
    shapeAt ((Array.replicate ops.size none).setIfInBounds 0 (some [])) i = if i = 0 then some [] else none := by
  have hnone : shapeAt (Array.replicate ops.size none) i = none := by
    rw [shapeAt, Array.getElem?_replicate]
    split <;> rfl
  rw [shapeAt_setIfInBounds (by simpa using hops), hnone]
  exact if_congr eq_comm rfl rfl

/-- The search gives a shape to all instructions that can be reached, and has followed each of them. The entry keeps its
empty stack if no handler starts there. -/
theorem shapesOf_settled (hops : 0 < ops.size) (hbegin : ∀ i s, Begins ops handlers i s → P i s)
    (hclosed : ∀ i s next t, P i s → Leads c ops i s next t → ∀ j ∈ next, P j t)
    (h : shapesOf c ops handlers = .ok shapes) :
    shapes.size = ops.size ∧ (∀ i s, shapeAt shapes i = some s → Settled c ops shapes i s ∧ P i s) ∧
      (∀ target ∈ handlers.map Prod.fst, ∃ i op, ops[i]? = some op ∧ op.offset = target ∧
        shapeAt shapes i = some [.one]) ∧
      ((∀ op, ops[0]? = some op → op.offset ∉ handlers.map Prod.fst) → shapeAt shapes 0 = some []) := by
  obtain ⟨start, hstart, h⟩ := bind_eq_ok.mp h
  obtain ⟨r, hclose, h⟩ := bind_eq_ok.mp h
  cases h
  have hseeded := seeds_seeded (by exact Array.size_setIfInBounds.trans Array.size_replicate) hstart
  have hunmet : unmet start.shapes ≤ ops.size := by
    have hcount : start.shapes.toList.count none ≤ _ := List.count_le_length
    simpa [unmet, hseeded.size] using hcount
  have hfresh (i : Nat) (s : Shape) (hs : shapeAt start.shapes i = some s) :
      i ∈ start.work ∧ Begins ops handlers i s := by
    rcases hseeded.fresh i s hs with hs | ⟨hwork, hone, hop⟩
    · rw [shapeAt_entry hops] at hs
      by_cases hi : i = 0
      · rw [if_pos hi, Option.some.injEq] at hs
        exact ⟨hseeded.work (by simp [hi]), .inl ⟨hi, hs.symm⟩⟩
      · rw [if_neg hi] at hs
        cases hs
    · exact ⟨hwork, .inr ⟨hone, hop⟩⟩
  have hzero : shapeAt ((Array.replicate ops.size none).setIfInBounds 0 (some [])) 0 = some [] := by
    rw [shapeAt_entry hops, if_pos rfl]
  have hsound : start.Sound c ops P := by
    refine ⟨hseeded.size.trans (Array.size_setIfInBounds.trans Array.size_replicate), ?_,
      fun i s hs => .inl (hfresh i s hs).1, fun i s hs => hbegin i s (hfresh i s hs).2⟩
    intro i hi
    rcases hseeded.shaped i hi with hi | hi
    · obtain rfl := List.mem_singleton.mp hi
      rcases hseeded.keeps 0 [] hzero with hs | ⟨hs, -⟩
      · exact ⟨_, hs⟩
      · exact ⟨_, hs⟩
    · exact ⟨_, hi⟩
  have hlength : start.work.length = handlers.length + 1 := by
    rw [hseeded.length]
    simp [Nat.add_comm]
  obtain ⟨hsettled, hsize, hkeeps⟩ := hsound.close hclosed (by omega) hclose
  refine ⟨hsize, hsettled, ?_, ?_⟩
  · intro target htarget
    obtain ⟨i, op, hop, hoffset, hi⟩ := hseeded.given target htarget
    exact ⟨i, op, hop, hoffset, hkeeps i _ hi⟩
  · intro hfree
    rcases hseeded.keeps 0 [] hzero with hs | ⟨-, op, hop, hmem⟩
    · exact hkeeps 0 [] hs
    · exact (hfree op hop hmem).elim

end JavaLift.ClassFile
