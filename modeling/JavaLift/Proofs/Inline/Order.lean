import JavaLift.Proofs.Inline.Planning

namespace JavaLift.InlinePlan

def EndsIn (moves : List Wrap) : Nat → Nat → Prop :=
  Relation.TransGen fun i use => ∃ path, ⟨i, use, path⟩ ∈ moves

/-- The statement at a position can be evaluated on the other side of what moves with the instruction at `source`:
it writes no register that is read there, and one of the two has no effect. -/
def Commutes (p : InlinePlan) (source i : Nat) : Prop :=
  ∀ j, p.insns[i]? = some j →
    (∀ r ∈ j.writeCells, r ∉ p.movedReads source) ∧ (p.groupReorders source = false → j.canReorder = true)

/-- A move passes only statements that commute with the moved expression, unless they end up in its use as well. -/
def KeepsOrder (p : InlinePlan) (moves : List Wrap) (w : Wrap) : Prop :=
  ∀ i, w.source < i → i < w.use → ¬ EndsIn moves i w.use → p.Commutes w.source i

/-- Planning a move does not look at a position: the border comes first, or what moves is a constant. -/
def Overlooks (p : InlinePlan) (w : Wrap) (i : Nat) : Prop :=
  p.border w.use ≤ i ∨ (p.movedReads w.source = [] ∧ ∃ j, p.insns[w.source]? = some j ∧ j.op.isConst = true)

theorem EndsIn.mono {moves more : List Wrap} (hsub : ∀ w ∈ moves, w ∈ more) {i use : Nat} (h : EndsIn moves i use) :
    EndsIn more i use :=
  Relation.TransGen.mono (fun _ _ ⟨path, hw⟩ => ⟨path, hsub _ hw⟩) i use h

theorem target?_mem {p : InlinePlan} {pos use : Nat} (h : p.target? pos = some use) :
    ∃ path, ⟨pos, use, path⟩ ∈ p.wraps := by
  obtain ⟨⟨source, use', path⟩, hf, rfl⟩ := Option.map_eq_some_iff.mp h
  obtain rfl : source = pos := by simpa using List.find?_some hf
  exact ⟨path, List.mem_of_find?_eq_some hf⟩

/-- An instruction moves to where the way through its targets leads. -/
theorem endsIn_rootFrom (p : InlinePlan) (steps pos : Nat) (hne : p.rootFrom steps pos ≠ pos) :
    EndsIn p.wraps pos (p.rootFrom steps pos) := by
  induction steps generalizing pos with
  | zero => exact absurd rfl hne
  | succ steps ih =>
      simp only [rootFrom] at hne ⊢
      cases ht : p.target? pos with
      | none => simp [ht] at hne
      | some use =>
          have hstep : EndsIn p.wraps pos use := .single (target?_mem ht)
          simp only [Option.elim_some]
          by_cases hu : p.rootFrom steps use = use
          · rwa [hu]
          · exact hstep.trans (ih use hu)

theorem commutes_iff_passes {p : InlinePlan} {source i : Nat} :
    p.Commutes source i ↔ (p.insns[i]?).all (passes (p.movedReads source) (p.groupReorders source)) = true := by
  cases hi : p.insns[i]? with
  | none => simp [Commutes, hi]
  | some j =>
      cases hr : p.groupReorders source <;> cases hj : j.canReorder <;> simp [Commutes, passes, writesAny, hi, hr, hj]

/-- What planning looks at either ends up in the same use or commutes. -/
theorem canMove_commutes {p : InlinePlan} {w : Wrap} (h : p.canMove w.source w.use = true) {i : Nat}
    (hi : w.source < i) (hseen : ¬ p.Overlooks w i) (hroot : p.root i ≠ w.use) : p.Commutes w.source i := by
  simp only [Overlooks, not_or, Nat.not_le] at hseen
  simp only [canMove, Bool.or_eq_true, Bool.and_eq_true, List.isEmpty_iff, Option.any_eq_true, List.all_eq_true,
    List.mem_filter, List.mem_range, decide_eq_true_eq, bne_iff_ne] at h
  rcases h with h | h
  · exact absurd h hseen.2
  · exact commutes_iff_passes.mpr (h i ⟨hseen.1, hi, hroot⟩)

/-- A planned move keeps the order where planning looks. -/
theorem admits_commutes {p : InlinePlan} {w : Wrap} (h : p.admits w = true) {i : Nat} (hi : w.source < i)
    (hu : i < w.use) (hstay : ¬ EndsIn p.wraps i w.use) (hseen : ¬ p.Overlooks w i) : p.Commutes w.source i := by
  refine canMove_commutes ?_ hi hseen ?_
  · simp only [admits, Bool.and_eq_true] at h
    exact h.1.2
  · intro hroot
    refine hstay (hroot ▸ endsIn_rootFrom p _ i ?_)
    change p.root i ≠ i
    omega

/-- Planning a block succeeds, and each of its moves keeps the order of evaluation exactly if the moved expression
commutes with the statements that planning does not look at: those between the border of the use and the use, and
all of them where the moved expression is a constant. -/
theorem keepsOrder_iff_overlooked (c : Chain) (block : Nat) (insns : List Insn) :
    ∃ moves, Inlining.planBlock c block insns = .ok moves ∧ ∀ earlier w later, moves = earlier ++ w :: later →
      ((ofMoves insns earlier).KeepsOrder moves w ↔
        ∀ i, w.source < i → i < w.use → ¬ EndsIn moves i w.use → (ofMoves insns earlier).Overlooks w i →
          (ofMoves insns earlier).Commutes w.source i) := by
  obtain ⟨moves, hmoves, hplanned⟩ := Inlining.planBlock_planned c block insns
  refine ⟨moves, hmoves, ?_⟩
  rintro earlier w later rfl
  have hw : Planned insns (w :: earlier.reverse) := by
    rw [List.reverse_append, List.reverse_cons, List.append_assoc] at hplanned
    exact Planned.at hplanned
  have hadmits : (ofMoves insns earlier).admits w = true := by
    cases hw with
    | cons _ _ _ _ _ _ admitted => exact admitted
  constructor
  · intro hkeeps i hi hu hstay _
    exact hkeeps i hi hu hstay
  · intro hover i hi hu hstay
    by_cases hseen : (ofMoves insns earlier).Overlooks w i
    · exact hover i hi hu hstay hseen
    · refine admits_commutes hadmits hi hu (fun hends => hstay (hends.mono ?_)) hseen
      intro v hv
      exact List.mem_append_left _ (List.mem_reverse.mp hv)

/-- Calls `g`, loads a constant, calls `h`, and calls `f` with the value of `g` and the constant. -/
def callAroundConstant : List Insn :=
  [.of (.invoke .static ⟨"Foo", "g", [], .int⟩) [] (some (.plain 0)) 0,
    .of .const [.lit 5 .int] (some (.plain 1)) 3,
    .of (.invoke .static ⟨"Foo", "h", [], .void⟩) [] none 4,
    .of (.invoke .static ⟨"Foo", "f", [.int, .int], .void⟩) [.ofReg 0, .ofReg 1] none 7,
    .of .ret [] none 10]

/-- The constant is planned first and takes the border past `h`, so the call of `g` moves past that of `h`. -/
theorem not_keepsOrder_callAroundConstant :
    Inlining.planBlock (Chain.build ⟨#[⟨0, callAroundConstant, [], []⟩], 0, []⟩ []) 0 callAroundConstant =
      .ok [⟨1, 3, [.arg 1]⟩, ⟨0, 3, [.arg 0]⟩] ∧
    ¬ (ofMoves callAroundConstant [⟨1, 3, [.arg 1]⟩]).KeepsOrder [⟨1, 3, [.arg 1]⟩, ⟨0, 3, [.arg 0]⟩]
      ⟨0, 3, [.arg 0]⟩ := by
  refine ⟨by cbv, fun h => ?_⟩
  have hstay : ¬ EndsIn [⟨1, 3, [.arg 1]⟩, ⟨0, 3, [.arg 0]⟩] 2 3 := by
    intro hends
    obtain ⟨_, ⟨_, hm⟩, -⟩ := Relation.TransGen.head'_iff.mp hends
    simp at hm
  have hfree : (false : Bool) = true := (h 2 (by decide) (by decide) hstay _ rfl).2 (by cbv)
  cases hfree

/-- The first move into an instruction keeps the order, if it reads a register. -/
theorem keepsOrder_of_first {p : InlinePlan} {w : Wrap} (h : p.admits w = true) (hfirst : ∀ v ∈ p.wraps, v.use ≠ w.use)
    (hreads : p.movedReads w.source ≠ []) : p.KeepsOrder p.wraps w := by
  intro i hi hu hstay
  have hnone : p.wraps.find? (fun v => v.use == w.use) = none := by simpa using hfirst
  have hborder : p.border w.use = w.use := by simp [border, hnone]
  refine admits_commutes h hi hu hstay ?_
  rintro (hb | ⟨hr, -⟩)
  · omega
  · exact hreads hr

end JavaLift.InlinePlan
