import JavaLift.Proofs.Inline.Conservation

namespace JavaLift

/-- The number of instructions that are not part of another one. -/
def Graph.insnCount (g : Graph) : Nat := (g.blocks.toList.map fun block => block.insns.length).sum

def Inlining.IsLimited (s : Inlining) : Prop := ∃ d ∈ s.diagnostics, d.kind = .inlinePassLimit

theorem InlinePlan.Exchanged.length_add {insns : List Insn} {ws : List Wrap} {places : List (Option Insn)}
    (h : Exchanged insns ws places) : (places.filterMap id).length + ws.length = insns.length := by
  have hcount (is : List Insn) : (is.flatMap fun _ => [()]).length = is.length := by simp
  rw [← hcount, ← hcount insns, flatMap_filterMap_id]
  induction h with
  | nil => simp [List.flatMap_map]
  | @cons w ws places source target whole r before hs hu _ ih =>
      have hstep := (@flatMap_exchange places Unit (fun _ => [()]) [()] _ _ _ _ whole hs hu (.refl _)).length_eq
      rw [List.length_append, List.length_singleton] at hstep
      rw [List.length_cons]
      omega

namespace Inlining

open InlinePlan

variable {c : Chain} {b n : Nat} {block after : Block} {g g' : Graph} {entry : List Register} {moved : Nat}

/-- What a pass over a block counts are the instructions that are outermost no longer. -/
theorem passBlock_counts (h : passBlock c b block = .ok (after, n)) :
    after.insns.length + n = block.insns.length ∧ (n = 0 → after = block) := by
  obtain ⟨moves, hplan, h⟩ := bind_eq_ok.mp h
  obtain ⟨insns, happly, h⟩ := bind_eq_ok.mp h
  cases h
  obtain ⟨moves', hplan', hplanned⟩ := planBlock_planned c b block.insns
  rw [hplan] at hplan'
  cases hplan'
  obtain ⟨places, happly', hplaces⟩ := hplanned.exchanged
  rw [List.reverse_reverse, happly] at happly'
  cases happly'
  refine ⟨by simpa using hplaces.length_add, fun hnone => ?_⟩
  rw [List.length_eq_zero_iff] at hnone
  subst hnone
  cases hplaces
  simp

/-- The counts of the blocks as those of all of them. -/
theorem counts_of_forall₂ {blocks : List Block} {rs : List (Block × Nat)}
    (h : List.Forall₂ (fun block r => r.1.insns.length + r.2 = block.insns.length ∧ (r.2 = 0 → r.1 = block)) blocks rs) :
    ((rs.map (·.1)).map fun block => block.insns.length).sum + rs.foldr (fun r n => r.2 + n) 0 =
        (blocks.map fun block => block.insns.length).sum ∧
      (rs.foldr (fun r n => r.2 + n) 0 = 0 → rs.map (·.1) = blocks) := by
  induction h with
  | nil => exact ⟨rfl, fun _ => rfl⟩
  | cons hr _ ih =>
      simp only [List.map_cons, List.sum_cons, List.foldr_cons]
      have := hr.1
      refine ⟨by omega, fun hnone => ?_⟩
      rw [hr.2 (by omega), ih.2 (by omega)]

/-- A pass takes as many instructions from their places as it says, and without any the graph is what it was. -/
theorem pass_counts (h : pass g entry = .ok (g', moved)) :
    g'.insnCount + moved = g.insnCount ∧ (moved = 0 → g' = g) := by
  obtain ⟨rs, hrs, h⟩ := bind_eq_ok.mp h
  cases h
  have hall : List.Forall₂ (fun (block : Block) (r : Block × Nat) =>
      r.1.insns.length + r.2 = block.insns.length ∧ (r.2 = 0 → r.1 = block)) g.blocks.toList rs := by
    rw [← List.zipIdx_map_fst 0 g.blocks.toList, List.forall₂_map_left_iff]
    exact (forall₂_of_mapM hrs).imp fun _ _ hr => passBlock_counts hr
  obtain ⟨hcounts, hsame⟩ := counts_of_forall₂ hall
  refine ⟨hcounts, fun hnone => ?_⟩
  rw [hsame hnone, Array.toArray_toList]

/-- How a run over some graph ends that has made and moved as much as `s` says when `left` passes are left. It counts
what it moves, and all its passes but the last one move something. -/
structure Ends (entry : List Register) (left : Nat) (s : Inlining) (g : Graph) (s' : Inlining) (g' : Graph) : Prop where
  counts : g'.insnCount + s'.moved = g.insnCount + s.moved
  useful : s'.passes + s.moved ≤ s.passes + s'.moved + 1
  settled : ¬ s'.IsLimited → 0 < left ∧ pass g' entry = .ok (g', 0)
  limited : s'.IsLimited → s.IsLimited ∨ left + s.moved ≤ s'.moved

theorem run_ends (entry : List Register) (limit left : Nat) (s : Inlining) (g : Graph) :
    ∃ g' s', run entry limit left s g = .ok (g', s') ∧ Ends entry left s g s' g' := by
  induction left generalizing s g with
  | zero =>
      refine ⟨g, _, rfl, rfl, Nat.le_succ _, fun hnot => ?_, fun _ => .inr (Nat.le_of_eq (Nat.zero_add _))⟩
      exact absurd ⟨_, List.mem_append_right _ List.mem_cons_self, rfl⟩ hnot
  | succ left ih =>
      obtain ⟨g₁, count, -, hpass, -, -⟩ := pass_moves g entry
      obtain ⟨hcount, hsame⟩ := pass_counts hpass
      by_cases hnone : count = 0
      · subst hnone
        obtain rfl := hsame rfl
        refine ⟨g₁, { s with passes := s.passes + 1, moved := s.moved + 0 }, ?_, rfl, ?_, ?_, .inl⟩
        · rw [run, hpass]
          rfl
        · exact (Nat.add_right_comm s.passes 1 s.moved).le
        · exact fun _ => ⟨Nat.succ_pos left, hpass⟩
      · obtain ⟨g', s', hrun, hends⟩ := ih { s with passes := s.passes + 1, moved := s.moved + count } g₁
        refine ⟨g', s', ?_, ?_, ?_, fun hnot => ⟨Nat.succ_pos left, (hends.settled hnot).2⟩, fun hlimit => ?_⟩
        · rw [run, hpass]
          exact (if_neg hnone).trans hrun
        · have := hends.counts
          dsimp only at this
          omega
        · have := hends.useful
          dsimp only at this
          omega
        · refine (hends.limited hlimit).imp_right fun hle => ?_
          dsimp only at hle
          omega

theorem inlineValues_of_pass (h : pass g entry = .ok (g, 0)) {maxPasses : Nat} (hpos : 0 < maxPasses) :
    g.inlineValues entry maxPasses = .ok (g, ⟨1, 0, []⟩) := by
  obtain ⟨left, rfl⟩ := Nat.exists_eq_add_of_lt hpos
  rw [Graph.inlineValues, run, h]
  rfl

/-- What a run with at most so many passes leads to. With more of them than there are instructions it comes to an
end of its own accord; and once it has, another run finds nothing to do. -/
structure Settles (entry : List Register) (maxPasses : Nat) (g g' : Graph) (s : Inlining) : Prop where
  counts : g'.insnCount + s.moved = g.insnCount
  bounded : g.insnCount < maxPasses → s.passes ≤ g.insnCount + 1 ∧ ¬ s.IsLimited
  again : ¬ s.IsLimited → 0 < maxPasses ∧ ∀ more, 0 < more → g'.inlineValues entry more = .ok (g', ⟨1, 0, []⟩)

/-- Inlining reaches a fixpoint, and does so within one pass more than there are instructions. -/
theorem inlineValues_settles (g : Graph) (entry : List Register) (maxPasses : Nat) :
    ∃ g' s, g.inlineValues entry maxPasses = .ok (g', s) ∧ Settles entry maxPasses g g' s := by
  obtain ⟨g', s, hrun, hends⟩ := run_ends entry maxPasses maxPasses ⟨0, 0, []⟩ g
  have hcounts : g'.insnCount + s.moved = g.insnCount := hends.counts
  have huseful := hends.useful
  dsimp only at huseful
  refine ⟨g', s, hrun, hcounts, fun hmax => ⟨by omega, fun hlimit => ?_⟩, fun hnot => ?_⟩
  · rcases hends.limited hlimit with ⟨d, hd, -⟩ | hle
    · cases hd
    · dsimp only at hle
      omega
  · obtain ⟨hpos, hpass⟩ := hends.settled hnot
    exact ⟨hpos, fun more hmore => inlineValues_of_pass hpass hmore⟩

end Inlining

end JavaLift
