import JavaLift.Proofs.Flow.Walk
import JavaLift.Proofs.Inline.Apply

namespace JavaLift

def Insn.branchEffects (i : Insn) : List (Head × Head) := i.toArg.branchEffects

def Block.branchEffects (b : Block) : List (Head × Head) := b.insns.flatMap Insn.branchEffects

/-- The conditional values below the instruction that a path enters a branch of. -/
def Insn.enteredBelow (i : Insn) : ArgPath → List Head
  | [] => []
  | s :: path => ((s.index? i.op.conditions).bind fun n => i.args[n]?).elim [] (Arg.entered path)

namespace InlinePlan

variable {insns : List Insn} {ws : List Wrap} {w : Wrap}

/-- A move leads no effect into a branch of a conditional value below its use. -/
def KeepsUnconditional (p : InlinePlan) (w : Wrap) : Prop :=
  ∀ i, p.insns[w.use]? = some i → i.enteredBelow w.path ≠ [] → p.groupReorders w.source = true

def exposure (p : InlinePlan) (w : Wrap) : List (Head × Head) :=
  ((p.insns[w.use]?).elim [] fun i => i.toArg.entered w.path).flatMap fun head =>
    ((p.group w.source).flatMap fun i => i.toArg.effects).map (head, ·)

def exposures (insns : List Insn) : List Wrap → List (Head × Head)
  | [] => []
  | w :: ws => exposures insns ws ++ exposure ⟨insns.toArray, ws⟩ w

theorem entered_eq (i : Insn) (path : ArgPath) :
    i.toArg.entered path = (if intoBranch path i then [i.toHead] else []) ++ i.enteredBelow path := by
  obtain ⟨⟨op, _, _, _⟩, _⟩ := i
  rcases path with _ | ⟨_ | _, _⟩ <;> cases op <;> rfl

/-- Planning has looked at the use itself, so the branches below it decide. -/
theorem exposure_eq_nil (h : Planned insns (w :: ws)) :
    exposure ⟨insns.toArray, ws⟩ w = [] ↔ KeepsUnconditional ⟨insns.toArray, ws⟩ w := by
  cases h with
  | @cons _ _ i _ _ used _ _ _ admitted =>
      have hused : insns.toArray[w.use]? = some i := by simpa using used
      have hguard : intoBranch w.path i = true → groupReorders ⟨insns.toArray, ws⟩ w.source = true := by
        simp only [admits, hused, Option.all_some, Bool.and_eq_true, Bool.or_eq_true, Bool.not_eq_true'] at admitted
        intro hinto
        simpa [hinto] using admitted.2.1
      have heffects : ((group ⟨insns.toArray, ws⟩ w.source).flatMap fun i => i.toArg.effects) = [] ↔
          groupReorders ⟨insns.toArray, ws⟩ w.source = true := by
        simp [groupReorders, Insn.canReorder, Arg.effects_eq_nil]
      constructor
      · intro hnil j hj hbelow
        obtain rfl : i = j := by simpa [hused] using hj
        obtain ⟨head, hhead⟩ := List.exists_mem_of_ne_nil _ hbelow
        have hentered : head ∈ i.toArg.entered w.path := by
          rw [entered_eq]
          exact List.mem_append_right _ hhead
        simp only [exposure, hused, Option.elim_some, List.flatMap_eq_nil_iff, List.map_eq_nil_iff] at hnil
        exact heffects.mp (List.flatMap_eq_nil_iff.mpr (hnil head hentered))
      · intro hkeeps
        by_cases hr : groupReorders ⟨insns.toArray, ws⟩ w.source = true
        · simp [exposure, heffects.mpr hr]
        · have htop : intoBranch w.path i = false := by
            by_contra hinto
            exact hr (hguard (by simpa using hinto))
          have hbelow : i.enteredBelow w.path = [] := by
            by_contra hne
            exact hr (hkeeps i hused hne)
          simp [exposure, hused, entered_eq, htop, hbelow]

theorem exposures_eq_nil (h : Planned insns ws) :
    exposures insns ws = [] ↔ ∀ earlier w later, ws.reverse = earlier ++ w :: later →
      (ofMoves insns earlier).KeepsUnconditional w := by
  induction ws with
  | nil => simp [exposures]
  | cons w ws ih =>
      have hbefore : Planned insns ws := by cases h with | cons before => exact before
      rw [exposures, List.append_eq_nil_iff, ih hbefore, exposure_eq_nil h, List.reverse_cons]
      constructor
      · rintro ⟨hearlier, hlast⟩ earlier v later hsplit
        rcases List.eq_nil_or_concat later with rfl | ⟨later, u, rfl⟩
        · obtain ⟨rfl, hv⟩ := List.append_inj' hsplit rfl
          cases hv
          simpa [ofMoves] using hlast
        · refine hearlier earlier v later ?_
          have : ws.reverse ++ [w] = (earlier ++ v :: later) ++ [u] := by simpa using hsplit
          exact (List.append_inj' this rfl).1
      · intro hall
        refine ⟨fun earlier v later hsplit => hall earlier v (later ++ [w]) (by simp [hsplit]), ?_⟩
        simpa [ofMoves] using hall ws.reverse w [] rfl

/-- A move adds its exposure to the effects in branches. -/
theorem Made.branchEffects_perm {places after : List (Option Insn)} (h : Planned insns (w :: ws))
    (hmade : Made insns ws w places after) :
    (after.flatMap fun i => i.elim [] Insn.branchEffects).Perm
      ((places.flatMap fun i => i.elim [] Insn.branchEffects) ++ exposure ⟨insns.toArray, ws⟩ w) := by
  refine hmade.flatMap_perm Insn.branchEffects _ fun source target whole r hsource htarget hr => ?_
  refine hr.branchEffects_perm.trans (List.Perm.append_left _ (List.Perm.append_left _ ?_))
  cases h with
  | @cons _ _ i _ _ used read _ free _ =>
      obtain ⟨⟨_, r'⟩, hread, rfl⟩ := List.mem_map.mp read
      have hentered := (htarget.open_reads i used _ r' hread free).2
      have hused : insns.toArray[w.use]? = some i := by simpa using used
      have heffects : source.toArg.effects.Perm
          ((group ⟨insns.toArray, ws⟩ w.source).flatMap fun i => i.toArg.effects) := by
        have := hsource.nodes.filter fun h => !h.op.canReorder
        rwa [List.filter_flatMap] at this
      simp only [exposure, hused, Option.elim_some, hentered]
      exact List.Perm.flatMap_left _ fun head _ => heffects.map _

/-- Making the moves of a block adds their exposures. -/
theorem Planned.branchEffects_perm (h : Planned insns ws) :
    ∃ out, Wrap.applyAll ws.reverse insns = .ok out ∧
      (out.flatMap Insn.branchEffects).Perm (insns.flatMap Insn.branchEffects ++ exposures insns ws) := by
  obtain ⟨places, happly, hperm⟩ := h.applyAll
    (P := fun ws places => (places.flatMap fun i => i.elim [] Insn.branchEffects).Perm
      (insns.flatMap Insn.branchEffects ++ exposures insns ws))
    (by simp [exposures, List.flatMap_map])
    (fun w ws places after hplanned hmade hP => by
      refine (hmade.branchEffects_perm hplanned).trans ((hP.append_right _).trans ?_)
      rw [exposures, List.append_assoc])
  refine ⟨_, happly, ?_⟩
  rwa [List.filterMap_eq_flatMap_toList, List.flatMap_assoc, ← List.flatMap_congr (f := fun i => i.elim [] Insn.branchEffects)]
  intro i _
  cases i <;> simp

end InlinePlan

namespace Inlining

open InlinePlan

/-- The graphs with which the passes of a run begin, when `left` passes may still be made. -/
inductive PassFrom (entry : List Register) : Nat → Graph → Graph → Prop
  | here {left : Nat} {g : Graph} : PassFrom entry (left + 1) g g
  | next {left moved : Nat} {g g' h : Graph} (made : pass g entry = .ok (g', moved)) (more : moved ≠ 0)
      (rest : PassFrom entry left g' h) : PassFrom entry (left + 1) g h

/-- No move of a pass leads an effect into a branch of a conditional value below its use. -/
def PassKeepsUnconditional (g : Graph) (entry : List Register) : Prop :=
  ∀ b, b < g.size → ∀ earlier w later,
    planBlock (Chain.build g entry) b (g.block b).insns = .ok (earlier ++ w :: later) →
      (ofMoves (g.block b).insns earlier).KeepsUnconditional w

/-- Every effect that is in a branch of a conditional value afterwards was in that branch before. -/
def NoneAdded (g g' : Graph) : Prop := ∀ b, ((g'.block b).branchEffects).Subperm ((g.block b).branchEffects)

theorem Shrunk.branchEffects {c : Chain} {b : Nat} {block after : Block} (h : Shrunk c b block after) :
    ∃ added, after.branchEffects.Perm (block.branchEffects ++ added) ∧
      (added = [] ↔ ∀ earlier w later, planBlock c b block.insns = .ok (earlier ++ w :: later) →
        (ofMoves block.insns earlier).KeepsUnconditional w) := by
  obtain ⟨moves, out, hplan, hplanned, happly, rfl⟩ := h
  obtain ⟨out', hout', hperm⟩ := hplanned.branchEffects_perm
  rw [List.reverse_reverse, happly] at hout'
  cases hout'
  refine ⟨_, hperm, ?_⟩
  rw [exposures_eq_nil hplanned, List.reverse_reverse, hplan]
  simp

/-- A pass takes no effect out of a branch. It adds none exactly if all its moves keep to the condition. -/
theorem pass_branchEffects (g : Graph) (entry : List Register) :
    ∃ g' moved, pass g entry = .ok (g', moved) ∧ NoneAdded g' g ∧ (NoneAdded g g' ↔ PassKeepsUnconditional g entry) := by
  obtain ⟨g', moved, hpass, hsize, hshrunk⟩ := pass_shrunk g entry
  refine ⟨g', moved, hpass, fun b => ?_, ⟨fun hnone b hb => ?_, fun hkeeps b => ?_⟩⟩
  · by_cases hb : b < g.size
    · obtain ⟨added, hperm, -⟩ := (hshrunk b hb).branchEffects
      exact (List.sublist_append_left _ added).subperm.trans hperm.symm.subperm
    · rw [Graph.block_of_size_le (Nat.le_of_not_lt hb), Graph.block_of_size_le (by omega)]
  · obtain ⟨added, hperm, hadded⟩ := (hshrunk b hb).branchEffects
    refine hadded.mp ?_
    have hle := (hnone b).length_le
    rw [hperm.length_eq, List.length_append] at hle
    exact List.length_eq_zero_iff.mp (by omega)
  · by_cases hb : b < g.size
    · obtain ⟨added, hperm, hadded⟩ := (hshrunk b hb).branchEffects
      obtain rfl := hadded.mpr (hkeeps b hb)
      rw [List.append_nil] at hperm
      exact hperm.subperm
    · rw [Graph.block_of_size_le (Nat.le_of_not_lt hb), Graph.block_of_size_le (by omega)]

/-- A run adds no effect exactly if none of its passes does. -/
theorem run_branchEffects (entry : List Register) (limit left : Nat) (s : Inlining) (g : Graph) :
    ∃ g' s', run entry limit left s g = .ok (g', s') ∧ NoneAdded g' g ∧
      (NoneAdded g g' ↔ ∀ h, PassFrom entry left g h → PassKeepsUnconditional h entry) := by
  induction left generalizing s g with
  | zero => exact ⟨g, _, rfl, fun _ => .refl _, ⟨fun _ _ hpass => (nomatch hpass), fun _ _ => .refl _⟩⟩
  | succ left ih =>
      obtain ⟨g₁, moved, hpass, hgrow, hiff⟩ := pass_branchEffects g entry
      have hfirst : (∀ h, PassFrom entry (left + 1) g h → PassKeepsUnconditional h entry) ↔
          PassKeepsUnconditional g entry ∧
            (moved ≠ 0 → ∀ h, PassFrom entry left g₁ h → PassKeepsUnconditional h entry) := by
        constructor
        · intro hall
          exact ⟨hall g .here, fun hmoved h hrest => hall h (.next hpass hmoved hrest)⟩
        · rintro ⟨hkeeps, hrest⟩ h hfrom
          cases hfrom with
          | here => exact hkeeps
          | next made more rest =>
              rw [hpass] at made
              cases made
              exact hrest more h rest
      by_cases hmoved : moved = 0
      · refine ⟨g₁, { s with passes := s.passes + 1, moved := s.moved + moved }, ?_, hgrow, ?_⟩
        · rw [run, hpass]
          exact if_pos hmoved
        · rw [hfirst, hiff]
          simp [hmoved]
      · obtain ⟨g', s', hrun, hgrow', hiff'⟩ := ih { s with passes := s.passes + 1, moved := s.moved + moved } g₁
        refine ⟨g', s', ?_, fun b => (hgrow b).trans (hgrow' b), ?_⟩
        · rw [run, hpass]
          exact (if_neg hmoved).trans hrun
        · rw [hfirst, ← hiff, ← hiff']
          simp only [ne_eq, hmoved, not_false_eq_true, true_implies]
          constructor
          · intro hnone
            exact ⟨fun b => (hgrow' b).trans (hnone b), fun b => (hnone b).trans (hgrow b)⟩
          · rintro ⟨hnone, hnone'⟩ b
            exact (hnone' b).trans (hnone b)

/-- Moving values into place always succeeds. It makes no effect conditional exactly if in every pass each move that
enters a branch of a conditional value below its use moves a value that is free in its place. -/
theorem noneAdded_iff_passKeepsUnconditional (g : Graph) (entry : List Register) (maxPasses : Nat) :
    ∃ g' s, g.inlineValues entry maxPasses = .ok (g', s) ∧
      (NoneAdded g g' ↔ ∀ h, PassFrom entry maxPasses g h → PassKeepsUnconditional h entry) := by
  obtain ⟨g', s, hrun, -, hiff⟩ := run_branchEffects entry maxPasses maxPasses ⟨0, 0, []⟩ g
  exact ⟨g', s, hrun, hiff⟩

/-- Calls `g`, and returns 5 or the value of `g`. -/
def callBeforeChoice : Graph :=
  ⟨#[⟨0, [.of (.invoke .static ⟨"Foo", "g", [], .int⟩) [] (some (.plain 1)) 0,
    .of .ret [.tree ⟨.ternary .eq 1, none, 3, none⟩ [.ofReg 0, .lit 5 .int, .ofReg 1]] none 6], [], []⟩], 0, []⟩

/-- The value that is returned is a conditional value below the `return`. The call of `g` moves into its branch. -/
theorem not_noneAdded_callBeforeChoice :
    ∃ g' s, callBeforeChoice.inlineValues [.plain 0] 3 = .ok (g', s) ∧ ¬ NoneAdded callBeforeChoice g' := by
  refine ⟨_, _, by cbv, fun h => ?_⟩
  have hlen := (h 0).length_le
  revert hlen
  decide +kernel

end Inlining

end JavaLift
