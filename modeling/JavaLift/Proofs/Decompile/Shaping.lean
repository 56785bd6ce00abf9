import JavaLift.Proofs.Fold.Shedding
import JavaLift.Decompile.Method
import JavaLift.Proofs.Construction.Placing
import JavaLift.Proofs.Inline.Conservation
import JavaLift.Proofs.Typing.WriteBack

namespace JavaLift

namespace Typing

theorem op_typeInsn (types : Array Ty) (c : Chain) (w : Webs) (b pos : Nat) (i : Insn) :
    (typeInsn types c w b pos i).op = i.op := by
  refine (congrArg Head.op (typeUses_spec types c w (usesAt c b pos) _).2).trans ?_
  cases (c.defAt? b pos).bind fun d => w.defVar[d]? <;> rfl

theorem infer_reworked (h : Hierarchy) (limit : Nat) (g : Graph) (c : Chain) (entryTypes : List Ty) (returned : Ty) :
    g.Reworked (infer h limit g c entryTypes returned).1 := by
  change g.Reworked (writeBack _ c _ g)
  refine ⟨Array.size_mapIdx, fun b => ?_, fun b j hj t ht => ?_⟩
  · simp only [Graph.block, writeBack, Array.getElem?_mapIdx]
    cases g.blocks[b]? <;> rfl
  · obtain ⟨pos, hpos⟩ := List.getElem?_of_mem hj
    rw [insns_writeBack, Option.map_eq_some_iff] at hpos
    obtain ⟨i, hi, rfl⟩ := hpos
    rw [op_typeInsn] at ht
    exact ⟨i, List.mem_of_getElem? hi, ht⟩

end Typing

theorem inlineValues_reworked {g g' : Graph} {entry : List Register} {maxPasses : Nat} {s : Inlining}
    (h : g.inlineValues entry maxPasses = .ok (g', s)) : g.Reworked g' := by
  obtain ⟨_, _, steps, hrun, hsize, -, hkeeps⟩ := Inlining.inlineValues_keeps g entry maxPasses
  cases h.symm.trans hrun
  refine ⟨hsize, fun b => (hkeeps b).rest, fun b j hj t ht => ?_⟩
  obtain ⟨i, hi, hhead⟩ := List.mem_map.mp ((hkeeps b).order.subset (List.mem_map_of_mem hj))
  have hop : i.op = j.op := congrArg Head.op hhead
  exact ⟨i, hi, hop ▸ ht⟩

namespace Construction

theorem targets_construct (result : Option Register) (i : Insn) {t : Nat} (ht : t ∈ (construct result i).op.targets) :
    t ∈ i.op.targets := by
  unfold construct at ht
  split at ht
  · cases ht
  · exact ht

theorem targets_apply {insns : List Insn} {p : Construction} {j : Insn} {t : Nat} (hj : j ∈ apply insns p)
    (ht : t ∈ j.op.targets) : ∃ i ∈ insns, t ∈ i.op.targets := by
  obtain ⟨pos, hpos⟩ := List.getElem?_of_mem hj
  rw [getElem?_apply] at hpos
  split at hpos
  · obtain ⟨i, hi, rfl⟩ := Option.map_eq_some_iff.mp hpos
    exact ⟨i, List.mem_of_getElem? hi, targets_construct _ i ht⟩
  · exact ⟨j, List.mem_of_getElem? hpos, ht⟩

theorem targets_applyAll {insns : List Insn} {ps : List Construction} {j : Insn} {t : Nat} (hj : j ∈ applyAll ps insns)
    (ht : t ∈ j.op.targets) : ∃ i ∈ insns, t ∈ i.op.targets := by
  have hmem : j ∈ ps.foldl apply insns := by
    have herase (positions : List Nat) (is : List Insn) :
        (positions.foldl (fun is pos => is.eraseIdx pos) is).Sublist is := by
      induction positions generalizing is with
      | nil => exact .refl _
      | cons pos positions ih => exact (ih _).trans (List.eraseIdx_sublist _ _)
    exact (herase _ _).subset hj
  clear hj
  induction ps generalizing insns with
  | nil => exact ⟨j, hmem, ht⟩
  | cons p ps ih =>
      obtain ⟨i, hi, ht⟩ := ih hmem
      exact targets_apply hi ht

theorem foldAll_reworked (g : Graph) (c : Chain) : g.Reworked (foldAll g c).1 := by
  have hblock (b : Nat) : (foldAll g c).1.block b = ((g.blocks[b]?).map fun block =>
      { block with insns := applyAll ((plans g c).filter (·.block == b)) block.insns }).getD ⟨0, [], [], []⟩ := by
    simp only [foldAll, Graph.block, Array.getElem?_mapIdx]
  refine ⟨Array.size_mapIdx, fun b => ?_, fun b j hj t ht => ?_⟩
  · rw [hblock, Graph.block]
    cases g.blocks[b]? <;> rfl
  · rw [hblock] at hj
    rw [Graph.block]
    cases hb : g.blocks[b]? with
    | none =>
        rw [hb] at hj
        cases hj
    | some block =>
        rw [hb] at hj
        exact targets_applyAll hj ht

end Construction

/-- What shaping keeps: the loops and the jumps of the tree and the offsets of the blocks. Where all jumps are written
out, only instructions change. -/
structure Shaped.Keeps (s s' : Shaped) : Prop where
  aligned : s.graph.Aligned s'.graph
  sheds : Sheds s.root.nodes s'.root.nodes
  raw : ∀ bs : List Nat, s.root = .seq (bs.map .raw) → s'.root = s.root ∧ s.graph.Reworked s'.graph

namespace Shaped

variable {o : Options} {entry : List Register} {s s' s'' : Shaped}

theorem Keeps.trans (h : Keeps s s') (h' : Keeps s' s'') : Keeps s s'' where
  aligned := h.aligned.trans h'.aligned
  sheds := h.sheds.trans h'.sheds
  raw bs hs := by
    obtain ⟨hroot, hreworked⟩ := h.raw bs hs
    obtain ⟨hroot', hreworked'⟩ := h'.raw bs (hroot.trans hs)
    exact ⟨hroot'.trans hroot, hreworked.trans hreworked'⟩

theorem keeps_of_reworked (hroot : s'.root = s.root) (h : s.graph.Reworked s'.graph) : Keeps s s' where
  aligned := h.aligned
  sheds := hroot ▸ .refl _
  raw _ _ := ⟨hroot, h⟩

theorem inlineAgain_keeps {count : Nat} (h : inlineAgain o entry count s = .ok s') : Keeps s s' := by
  unfold inlineAgain at h
  split at h
  · cases h
    exact keeps_of_reworked rfl (.refl _)
  · obtain ⟨⟨g, r⟩, hg, h⟩ := bind_eq_ok.mp h
    cases h
    exact keeps_of_reworked rfl (inlineValues_reworked hg)

theorem foldConditionals_keeps (h : foldConditionals o entry s = .ok s') : Keeps s s' := by
  unfold foldConditionals at h
  split at h
  · obtain ⟨haligned, hsheds, -⟩ := Conditionals.foldAll_settles s.graph s.root
    generalize hfold : Conditionals.foldAll s.graph s.root = folded at h haligned hsheds
    obtain ⟨g, root, n⟩ := folded
    refine Keeps.trans ⟨haligned, hsheds, fun bs hs => ?_⟩ (inlineAgain_keeps h)
    rw [hs, Conditionals.foldAll_raw] at hfold
    cases hfold
    exact ⟨hs.symm, .refl _⟩
  · cases h
    exact keeps_of_reworked rfl (.refl _)

theorem foldConstructions_keeps (h : foldConstructions o entry s = .ok s') : Keeps s s' := by
  unfold foldConstructions at h
  split at h
  · have hreworked := Construction.foldAll_reworked s.graph (Chain.build s.graph entry)
    generalize Construction.foldAll s.graph (Chain.build s.graph entry) = folded at h hreworked
    obtain ⟨g, n⟩ := folded
    have hfolded : Keeps s { s with graph := g, constructors := s.constructors + n } := keeps_of_reworked rfl hreworked
    exact hfolded.trans (inlineAgain_keeps h)
  · cases h
    exact keeps_of_reworked rfl (.refl _)

theorem of_keeps {g : Graph} {root : Region} {constructors : Nat} (h : of o entry g root constructors = .ok s) :
    Keeps ⟨g, root, ⟨0, 0, []⟩, 0, constructors⟩ s := by
  obtain ⟨⟨g', r⟩, hg, h⟩ := bind_eq_ok.mp h
  obtain ⟨s₁, hs₁, h⟩ := bind_eq_ok.mp h
  have hinlined : Keeps ⟨g, root, ⟨0, 0, []⟩, 0, constructors⟩ ⟨g', root, r, 0, constructors⟩ :=
    keeps_of_reworked rfl (inlineValues_reworked hg)
  exact hinlined.trans ((foldConditionals_keeps hs₁).trans (foldConstructions_keeps h))

theorem inlineAgain_root {count : Nat} (h : inlineAgain o entry count s = .ok s') :
    s'.root = s.root ∧ s'.ternaries = s.ternaries := by
  unfold inlineAgain at h
  split at h
  · cases h
    exact ⟨rfl, rfl⟩
  · obtain ⟨⟨g, r⟩, -, h⟩ := bind_eq_ok.mp h
    cases h
    exact ⟨rfl, rfl⟩

theorem foldConstructions_root (h : foldConstructions o entry s = .ok s') :
    s'.root = s.root ∧ s'.ternaries = s.ternaries := by
  unfold foldConstructions at h
  split at h
  · obtain ⟨hroot, hternaries⟩ := inlineAgain_root h
    exact ⟨hroot, hternaries⟩
  · cases h
    exact ⟨rfl, rfl⟩

theorem foldConditionals_still (h : foldConditionals o entry s = .ok s') (hnone : s'.ternaries = 0) :
    s'.root.nodes.filterMap Region.own? = s.root.nodes.filterMap Region.own? := by
  unfold foldConditionals at h
  split at h
  · obtain ⟨hroot, hternaries⟩ := inlineAgain_root h
    rw [hroot]
    exact (Conditionals.foldAll_settles s.graph s.root).2.2 (hternaries.symm.trans hnone)
  · cases h
    rfl

/-- If no conditional value has been folded, the tree is about the blocks that it was about. -/
theorem stands_iff {g : Graph} {root : Region} {constructors b : Nat} (h : of o entry g root constructors = .ok s)
    (hnone : s.ternaries = 0) : s.root.Stands b ↔ root.Stands b := by
  obtain ⟨⟨g', r⟩, -, h⟩ := bind_eq_ok.mp h
  obtain ⟨s₁, hs₁, h⟩ := bind_eq_ok.mp h
  obtain ⟨hroot, hternaries⟩ := foldConstructions_root h
  have howns := foldConditionals_still hs₁ (hternaries.symm.trans hnone)
  rw [← hroot] at howns
  exact List.mem_filterMap.symm.trans ((iff_of_eq (congrArg (b ∈ ·) howns)).trans List.mem_filterMap)

end Shaped

end JavaLift
