import JavaLift.Inline.Plan
import JavaLift.Proofs.Insn.Tree

namespace JavaLift

namespace InlinePlan

def ofMoves (insns : List Insn) (moves : List Wrap) : InlinePlan := ⟨insns.toArray, moves.reverse⟩

inductive Planned (insns : List Insn) : List Wrap → Prop
  | nil : Planned insns []
  | cons {w : Wrap} {ws : List Wrap} {i : Insn} (before : Planned insns ws) (forward : w.source < w.use)
      (used : insns[w.use]? = some i) (read : w.path ∈ i.reads.map Prod.fst)
      (ordered : ∀ v ∈ ws, v.use ≤ w.use) (free : ∀ v ∈ ws, v.use = w.use → v.path ≠ w.path)
      (admitted : admits ⟨insns.toArray, ws⟩ w = true) : Planned insns (w :: ws)

/-- What held when one of the moves was planned. -/
theorem Planned.at {insns : List Insn} {later ws : List Wrap} {w : Wrap} (h : Planned insns (later ++ w :: ws)) :
    Planned insns (w :: ws) := by
  induction later with
  | nil => exact h
  | cons v later ih =>
      cases h with
      | cons before => exact ih before

theorem plan_eq {insns : List Insn} {ws : List Wrap} {w : Wrap} (hs : w.source < w.use) (hu : w.use < insns.length) :
    (plan ⟨insns.toArray, ws⟩ w).map Prod.fst =
      .ok ⟨insns.toArray, if admits ⟨insns.toArray, ws⟩ w then w :: ws else ws⟩ := by
  have hb : ¬ (w.use ≤ w.source ∨ insns.toArray.size ≤ w.use) := by simp; omega
  unfold plan
  rw [if_neg hb]
  split <;> simp_all [Except.map]

end InlinePlan

namespace Chain

theorem inlineSource?_lt {c : Chain} {block pos source : Nat} {path : ArgPath}
    (h : c.inlineSource? block pos path = some source) : source < pos := by
  simp only [inlineSource?, Option.bind_eq_bind, Option.bind_eq_some_iff] at h
  obtain ⟨u, -, h⟩ := h
  split at h
  · obtain ⟨d, -, h⟩ := Option.bind_eq_some_iff.mp h
    split at h
    · split at h
      · rename_i hp
        cases h
        exact hp.2.1
      · cases h
    · cases h
  · cases h

end Chain

namespace Inlining

open InlinePlan

variable {insns : List Insn} {pos : Nat} {i : Insn}

/-- The plans on the way through the reads of an instruction: `left` are those still to come. -/
def Reached (insns : List Insn) (pos : Nat) (left : List ArgPath) (p : InlinePlan) : Prop :=
  p.insns = insns.toArray ∧ Planned insns p.wraps ∧ ∀ v ∈ p.wraps, v.use ≤ pos ∧ (v.use = pos → v.path ∉ left)

theorem Reached.skip {path : ArgPath} {left : List ArgPath} {p : InlinePlan}
    (h : Reached insns pos (path :: left) p) : Reached insns pos left p := by
  obtain ⟨hs, hp, hw⟩ := h
  exact ⟨hs, hp, fun v hv => ⟨(hw v hv).1, fun he hm => (hw v hv).2 he (List.mem_cons_of_mem _ hm)⟩⟩

theorem planRead_reached (c : Chain) (block : Nat) (hi : insns[pos]? = some i) {path : ArgPath} {left : List ArgPath}
    (hread : path ∈ i.reads.map Prod.fst) (hnew : path ∉ left) {p : InlinePlan}
    (hp : Reached insns pos (path :: left) p) :
    ∃ q, planRead c block pos p path = .ok q ∧ Reached insns pos left q := by
  unfold planRead
  cases hc : c.inlineSource? block pos path with
  | none => exact ⟨p, rfl, hp.skip⟩
  | some source =>
      simp only
      split
      · exact ⟨p, rfl, hp.skip⟩
      · obtain ⟨insns', ws⟩ := p
        obtain ⟨rfl, hws, hfree⟩ := hp
        have hu : pos < insns.length := (List.getElem?_eq_some_iff.mp hi).1
        have hlt := Chain.inlineSource?_lt hc
        refine ⟨_, plan_eq (w := ⟨source, pos, path⟩) hlt hu, rfl, ?_⟩
        simp only
        split
        · rename_i hadm
          refine ⟨.cons hws hlt hi hread (fun v hv => (hfree v hv).1) ?_ hadm, ?_⟩
          · intro v hv he hpath
            exact (hfree v hv).2 he (hpath ▸ List.mem_cons_self)
          · intro v hv
            rcases List.mem_cons.mp hv with rfl | hv
            · exact ⟨Nat.le_refl _, fun _ => hnew⟩
            · exact ⟨(hfree v hv).1, fun he hm => (hfree v hv).2 he (List.mem_cons_of_mem _ hm)⟩
        · exact (Reached.skip (p := ⟨insns.toArray, ws⟩) ⟨rfl, hws, hfree⟩).2

theorem planReads_reached (c : Chain) (block : Nat) (hi : insns[pos]? = some i) (left : List ArgPath)
    (hsub : ∀ path ∈ left, path ∈ i.reads.map Prod.fst) (hn : left.Nodup) {p : InlinePlan}
    (hp : Reached insns pos left p) :
    ∃ q, left.foldlM (planRead c block pos) p = .ok q ∧ Reached insns pos [] q := by
  induction left generalizing p with
  | nil => exact ⟨p, rfl, hp⟩
  | cons path left ih =>
      obtain ⟨q, hq, hr⟩ := planRead_reached c block hi (hsub path List.mem_cons_self) (List.nodup_cons.mp hn).1 hp
      obtain ⟨r, hfold, h⟩ := ih (fun t ht => hsub t (List.mem_cons_of_mem _ ht)) (List.nodup_cons.mp hn).2 hr
      refine ⟨r, ?_, h⟩
      rw [List.foldlM_cons, hq]
      exact hfold

theorem planInsn_reached (c : Chain) (block : Nat) (hi : insns[pos]? = some i) {p : InlinePlan}
    (hs : p.insns = insns.toArray) (hp : Planned insns p.wraps) (hlt : ∀ v ∈ p.wraps, v.use < pos) :
    ∃ q, planInsn c block pos i p = .ok q ∧ Reached insns pos [] q := by
  refine planReads_reached c block hi _ (fun path hpath => List.mem_reverse.mp hpath)
    (List.nodup_reverse.mpr i.nodup_reads) ⟨hs, hp, fun v hv => ⟨Nat.le_of_lt (hlt v hv), fun he => ?_⟩⟩
  exact absurd he (Nat.ne_of_lt (hlt v hv))

theorem planFrom_planned (c : Chain) (block : Nat) (before rest : List Insn) {p : InlinePlan}
    (hs : p.insns = (before ++ rest).toArray) (hp : Planned (before ++ rest) p.wraps)
    (hlt : ∀ v ∈ p.wraps, v.use < before.length) :
    ∃ q, (rest.zipIdx before.length).foldlM (fun p (i, pos) => planInsn c block pos i p) p = .ok q ∧
      Planned (before ++ rest) q.wraps := by
  induction rest generalizing before p with
  | nil => exact ⟨p, rfl, hp⟩
  | cons i rest ih =>
      obtain ⟨q, hq, hqs, hqp, hle⟩ := planInsn_reached c block (i := i) (by simp) hs hp hlt
      obtain ⟨r, hfold, hr⟩ := ih (before ++ [i]) (p := q) (by simpa using hqs) (by simpa using hqp)
        (fun v hv => by rw [List.length_append]; exact Nat.lt_succ_of_le (hle v hv).1)
      refine ⟨r, ?_, by simpa using hr⟩
      rw [List.length_append] at hfold
      rw [List.zipIdx_cons, List.foldlM_cons]
      change (planInsn c block before.length i p >>= _) = _
      rw [hq]
      exact hfold

theorem planBlock_planned (c : Chain) (block : Nat) (insns : List Insn) :
    ∃ moves, planBlock c block insns = .ok moves ∧ Planned insns moves.reverse := by
  obtain ⟨q, hfold, hq⟩ := planFrom_planned c block [] insns (p := InlinePlan.of insns) rfl .nil (by simp [InlinePlan.of])
  refine ⟨q.moves, ?_, by simpa [moves] using hq⟩
  rw [List.length_nil] at hfold
  rw [planBlock, hfold]
  rfl

end Inlining

end JavaLift
