import JavaLift.Proofs.Flow.Walk
import JavaLift.Region.Structure

namespace JavaLift

/-- A loop that tests before each round: its header leads to the body one way and out of the loop the other way. -/
structure Loop.TestsFirst (g : Graph) (l : Loop) (negated : Bool) (out inner : Nat) : Prop where
  ends : (g.block l.header).endsInIf = true
  inner_mem : inner ∈ g.succs l.header
  inner_in : inner ∈ l.body
  inner_ne : inner ≠ l.header
  out_mem : out ∈ g.succs l.header
  out_out : out ∉ l.body
  more : g.branchTo l.header (!negated) = some inner
  leaves : g.branchTo l.header negated = some out

/-- A loop that decides after its body: its only latch leads to the header one way and out of the loop the other
way. -/
structure Loop.TestsLast (g : Graph) (l : Loop) (latch : Nat) (negated : Bool) (out : Nat) : Prop where
  ends : (g.block latch).endsInIf = true
  only : l.latches = [latch]
  succs : ∀ n ∈ g.succs latch, n = l.header ∨ n = out
  out_mem : out ∈ g.succs latch
  out_out : out ∉ l.body
  more : g.branchTo latch (!negated) = some l.header
  leaves : g.branchTo latch negated = some out

def Loop.decidesAt (g : Graph) (l : Loop) (latch : Nat) : Prop :=
  Region.whileShape? g l = none ∧ ∃ shape ∈ Region.doWhileShape? g l, shape.cond = some latch

namespace Region

variable {g : Graph} {d : Dominance} {l : Loop} {shape : LoopShape}

theorem whileShape?_eq (h : whileShape? g l = some shape) :
    ∃ negated out inner, shape = ⟨.whileDo, some l.header, negated, some out, some inner⟩ ∧
      l.TestsFirst g negated out inner := by
  unfold whileShape? at h
  split at h
  · rename_i fall target hif hsuccs
    by_cases hfall : fall ∈ l.body <;> by_cases htarget : target ∈ l.body <;> simp [hfall, htarget] at h
    · obtain ⟨hne, rfl⟩ := h
      exact ⟨_, _, _, rfl, hif, by simp [hsuccs], hfall, hne, by simp [hsuccs], htarget,
        by simp [Graph.branchTo, hsuccs], by simp [Graph.branchTo, hsuccs]⟩
    · obtain ⟨hne, rfl⟩ := h
      exact ⟨_, _, _, rfl, hif, by simp [hsuccs], htarget, hne, by simp [hsuccs], hfall,
        by simp [Graph.branchTo, hsuccs], by simp [Graph.branchTo, hsuccs]⟩
  · cases h

theorem doWhileShape?_eq (h : doWhileShape? g l = some shape) :
    ∃ latch negated out, shape = ⟨.doWhile, some latch, negated, some out, none⟩ ∧ l.TestsLast g latch negated out := by
  unfold doWhileShape? at h
  split at h
  · rename_i latch hlatches
    split at h
    · rename_i fall target hif hsuccs
      simp only at h
      by_cases htarget : target = l.header
      · rw [if_pos htarget] at h
        split at h
        · cases h
        · rename_i hout
          cases h
          exact ⟨_, _, _, rfl, hif, hlatches, by simp [hsuccs, htarget, or_comm], by simp [hsuccs], by simpa using hout,
            by simp [Graph.branchTo, hsuccs, htarget], by simp [Graph.branchTo, hsuccs]⟩
      · rw [if_neg htarget] at h
        split at h
        · rename_i hfall
          split at h
          · cases h
          · rename_i hout
            cases h
            exact ⟨_, _, _, rfl, hif, hlatches, by simp [hsuccs, hfall], by simp [hsuccs], by simpa using hout,
              by simp [Graph.branchTo, hsuccs, hfall], by simp [Graph.branchTo, hsuccs]⟩
        · cases h
    · cases h
  · cases h

/-- Where a loop with no comparison at its ends is left. -/
theorem endlessExit?_eq {p : Progress} {out : Nat} (h : endlessExit? g d p l = some out) :
    out ∉ l.body ∧ ∃ b ∈ l.body, out ∈ g.succs b := by
  obtain ⟨b, hb, hout⟩ := List.mem_flatMap.mp (List.mem_of_find?_eq_some h)
  refine ⟨fun hin => ?_, b, List.mem_mergeSort.mp hb, hout⟩
  simpa [hin] using List.find?_some h

theorem loopShape_cases (p : Progress) (l : Loop) :
    (∃ negated out inner, loopShape g d p l = ⟨.whileDo, some l.header, negated, some out, some inner⟩ ∧
      l.TestsFirst g negated out inner) ∨
    (∃ latch negated out, loopShape g d p l = ⟨.doWhile, some latch, negated, some out, none⟩ ∧
      l.TestsLast g latch negated out ∧ l.decidesAt g latch) ∨
    loopShape g d p l = ⟨.endless, none, false, endlessExit? g d p l, none⟩ := by
  unfold loopShape
  cases hwhile : whileShape? g l with
  | some shape =>
      obtain ⟨negated, out, inner, rfl, htests⟩ := whileShape?_eq hwhile
      exact .inl ⟨negated, out, inner, rfl, htests⟩
  | none =>
      cases hdo : doWhileShape? g l with
      | some shape =>
          obtain ⟨latch, negated, out, rfl, htests⟩ := doWhileShape?_eq hdo
          exact .inr (.inl ⟨latch, negated, out, rfl, htests, hwhile, _, hdo, rfl⟩)
      | none => exact .inr (.inr rfl)

end Region

end JavaLift
