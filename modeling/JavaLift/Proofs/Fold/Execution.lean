import JavaLift.Flow.Build
import JavaLift.Proofs.Fold.Conditional

namespace JavaLift

open Region Conditionals

namespace Event

/-- Only rounds of loops and jumps write down what they find. -/
def isChecked : Event → Bool
  | .round .. | .jump .. => true
  | _ => false

/-- What a loop or a jump has found is what is there in a given graph and tree. -/
def Finds (g : Graph) (root : Region) : Event → Prop
  | .round cond found => cond.bind g.comparisonAt = found
  | .jump target found => root.carriers.contains target = found
  | _ => True

theorem finds_of_not_checked {e : Event} (g : Graph) (root : Region) (h : e.isChecked = false) : e.Finds g root := by
  cases e <;> first | exact trivial | cases h

end Event

/-- The property of traces does not come to hold by an event that writes down nothing. -/
def Ignores (P : Trace → Prop) : Prop := ∀ e t, e.isChecked = false → P (e :: t) → P t

variable {P : Trace → Prop} {o : Outcomes} {α : Type}

theorem Act.Agrees.get (f : Trace → Act Trace α) (hf : ∀ t, Act.Agrees P (f t) (f t)) :
    Act.Agrees P (MonadState.get >>= f) (MonadState.get >>= f) := fun s hs => hf s s hs

/-- Two actions that begin with an event of their own each agree if the events are the same whenever the property
holds after the first one. -/
theorem Act.Agrees.log {e e' : Event} {a a' : Act Trace α} (ha : Act.Agrees P a a)
    (h : ∀ t, P (e :: t) → P t ∧ e' = e ∧ a' = a) :
    Act.Agrees P (Outcomes.log e >>= fun _ => a) (Outcomes.log e' >>= fun _ => a') := by
  intro s hs
  obtain ⟨hp, rfl, rfl⟩ := h s (ha (e :: s) hs).1
  exact ⟨hp, rfl⟩

namespace Outcomes

open Act

theorem log_agrees (hP : Ignores P) {e : Event} (h : e.isChecked = false) : Agrees P (log e) (log e) := fun s hs => ⟨hP e s h hs, rfl⟩

theorem decide_agrees (hP : Ignores P) (cmp : CmpOp) (n : Nat) : Agrees P (o.decide cmp n) (o.decide cmp n) :=
  .get _ fun _ => .bind (log_agrees hP rfl) fun _ => .pure _

theorem compute_agrees (hP : Ignores P) (op : Op) (offset n : Nat) : Agrees P (o.compute op offset n) (o.compute op offset n) :=
  .bind (log_agrees hP rfl) fun _ => .get _ fun _ => .ite (.throw _) (.pure _)

mutual

theorem eval_agrees (hP : Ignores P) : (a : Arg) → Agrees P (o.eval a) (o.eval a)
  | .reg _ | .lit .. => log_agrees hP rfl
  | .tree head args => by
      have hargs skip take := evalSome_agrees hP skip take args
      unfold eval
      split
      · exact .bind (hargs _ _) fun _ => .bind (decide_agrees hP _ _) fun _ => .ite (hargs _ _) (hargs _ _)
      · exact hargs _ _
      · exact .bind (hargs _ _) fun _ => compute_agrees hP _ _ _

theorem evalSome_agrees (hP : Ignores P) (skip take : Nat) :
    (args : List Arg) → Agrees P (o.evalSome skip take args) (o.evalSome skip take args)
  | [] => .pure ()
  | a :: rest => match skip, take with
    | skip + 1, take => evalSome_agrees hP skip take rest
    | 0, take + 1 => .bind (eval_agrees hP a) fun _ => evalSome_agrees hP 0 take rest
    | 0, 0 => .pure ()

end

theorem evalAll_agrees (hP : Ignores P) (args : List Arg) : Agrees P (o.evalAll args) (o.evalAll args) := evalSome_agrees hP _ _ args

theorem step_agrees (hP : Ignores P) (i : Insn) : Agrees P (o.step i) (o.step i) := by
  unfold step
  split
  · exact .pure ()
  · exact .pure ()
  · exact .pure ()
  · exact .pure ()
  · exact .bind (evalAll_agrees hP _) fun _ => .throw _
  · exact .bind (evalAll_agrees hP _) fun _ => .throw _
  · refine .bind (eval_agrees hP _) fun _ => ?_
    cases i.result with
    | none => exact .pure ()
    | some r => exact log_agrees hP rfl

theorem steps_agrees (hP : Ignores P) (is : List Insn) : Agrees P (o.steps is) (o.steps is) := by
  induction is with
  | nil => exact .pure ()
  | cons i is ih => exact .bind (step_agrees hP i) fun _ => ih

theorem decideOn_agrees (hP : Ignores P) (negated : Bool) (comparison : Option (CmpOp × List Arg)) :
    Agrees P (o.decideOn negated comparison) (o.decideOn negated comparison) := by
  cases comparison with
  | none => exact .throw _
  | some c => exact .bind (evalAll_agrees hP _) fun _ => decide_agrees hP _ _

theorem keyOf_agrees (hP : Ignores P) (args : List Arg) : Agrees P (o.keyOf args) (o.keyOf args) :=
  .bind (evalAll_agrees hP _) fun _ => .get _ fun _ => .bind (log_agrees hP rfl) fun _ => .pure _

end Outcomes

namespace Graph

open Outcomes

variable {g : Graph} {found found' : Nat → Option (CmpOp × List Arg)} {targets targets' bs : List Nat}

theorem selectAt_agrees (hP : Ignores P) (b : Nat) (heads : List CaseHead) :
    Act.Agrees P (g.selectAt o b heads) (g.selectAt o b heads) := by
  unfold selectAt
  split
  · exact .bind (keyOf_agrees hP _) fun _ => .pure _
  · exact .throw _

theorem leapFrom_agrees (hP : Ignores P) (b : Nat) : Act.Agrees P (g.leapFrom o b) (g.leapFrom o b) := by
  unfold leapFrom
  split
  · exact .pure ()
  · split
    · exact .bind (decideOn_agrees hP _ _) fun _ => .ite (.throw _) (.throw _)
    · refine .bind (keyOf_agrees hP _) fun key => ?_
      split <;> exact .throw _
    · exact .throw _
  · exact .throw _

/-- One graph with two tables for its loops and jumps. -/
theorem tables_agree (hP : Ignores P)
    (hround : ∀ cond t, P (.round cond (cond.bind found) :: t) → P t ∧ cond.bind found' = cond.bind found)
    (hland : ∀ target t, P (.jump target (targets.contains target) :: t) →
      P t ∧ targets'.contains target = targets.contains target) :
    (g.machine o found targets).Agrees P (g.machine o found' targets') bs := by
  refine ⟨fun b _ => steps_agrees hP _, fun b _ negated => decideOn_agrees hP _ _, fun cond negated => ?_,
    fun b _ heads => selectAt_agrees hP b heads, fun heads => .get _ fun _ => .pure _, fun b _ => leapFrom_agrees hP b, fun target => ?_⟩
  · refine .log (decideOn_agrees hP _ _) fun t ht => ?_
    obtain ⟨hp, heq⟩ := hround cond t ht
    rw [heq]
    exact ⟨hp, rfl, rfl⟩
  · refine .log (.pure _) fun t ht => ?_
    obtain ⟨hp, heq⟩ := hland target t ht
    rw [heq]
    exact ⟨hp, rfl, rfl⟩

end Graph

/-- A whole execution does the same after a replacement, if jumps only go to blocks that the replacement carries. -/
theorem Replaces.runFrom_eq {found : Nat → Option (CmpOp × List Arg)} {g g' : Graph} {root root' : Region}
    (h : Replaces o found root'.carriers g root g' root') (n jumps : Nat) (entry : Option Nat)
    (hentry : ∀ t ∈ entry, t ∈ carriers root') :
    (g'.machine o found root'.carriers).runFrom root' n jumps entry =
      (g.machine o found root'.carriers).runFrom root n jumps entry := by
  induction jumps generalizing entry with
  | zero => rfl
  | succ jumps ih =>
      simp only [Machine.runFrom]
      rw [h.same n entry hentry]
      congr 1
      funext e
      cases e with
      | jump target =>
          simp only [Graph.machine, bind_assoc, pure_bind]
          refine bind_congr fun _ => ?_
          by_cases ht : target ∈ root'.carriers
          · have hcontains : root'.carriers.contains target = true := by simpa using ht
            simp only [hcontains, if_true]
            exact ih (some target) fun t h => by cases h; exact ht
          · simp [ht]
      | _ => rfl

namespace Graph

variable {g g' : Graph} {root root' : Region}

/-- Every event of an execution finds what is there. -/
theorem execute_finds (o : Outcomes) (g : Graph) (root : Region) (n : Nat) :
    ∀ e ∈ (g.execute o root n).2, e.Finds g root := by
  have hP : Ignores fun t => ¬ ∀ e ∈ t, e.Finds g root := by
    intro e t he h ht
    exact h (List.forall_mem_cons.mpr ⟨Event.finds_of_not_checked g root he, ht⟩)
  have hM : (g.machine o g.comparisonAt root.carriers).Agrees (fun t => ¬ ∀ e ∈ t, e.Finds g root)
      (g.machine o g.comparisonAt root.carriers) root.carriers :=
    tables_agree hP (fun cond t h => ⟨fun ht => h (List.forall_mem_cons.mpr ⟨rfl, ht⟩), rfl⟩)
      fun target t h => ⟨fun ht => h (List.forall_mem_cons.mpr ⟨rfl, ht⟩), rfl⟩
  by_contra hbad
  exact ((Machine.runFrom_agrees hM (List.Subset.refl _) n n none) [] hbad).1 nofun

/-- The execution of one tree changes with the tables of its machine only if an event does not find the same. -/
theorem run_eq_execute (o : Outcomes) (g g' : Graph) (root root' : Region) (n : Nat)
    (h : ∀ e ∈ (g.execute o root n).2, e.Finds g' root') :
    ((g.machine o g'.comparisonAt root'.carriers).run root n).on [] = g.execute o root n := by
  have hP : Ignores fun t => ∀ e ∈ t, e.Finds g' root' := fun e t _ ht => (List.forall_mem_cons.mp ht).2
  have hM : (g.machine o g.comparisonAt root.carriers).Agrees (fun t => ∀ e ∈ t, e.Finds g' root')
      (g.machine o g'.comparisonAt root'.carriers) root.carriers := by
    refine tables_agree hP (fun cond t ht => ?_) fun target t ht => ?_
    · exact ⟨(List.forall_mem_cons.mp ht).2, (List.forall_mem_cons.mp ht).1⟩
    · exact ⟨(List.forall_mem_cons.mp ht).2, (List.forall_mem_cons.mp ht).1⟩
  exact ((Machine.runFrom_agrees hM (List.Subset.refl _) n n none) [] h).2

end Graph

namespace Conditionals

/-- Folding the conditional values of a method keeps an execution, all its events and its end, if and only if every
loop and every jump in it finds the same afterwards. -/
theorem execute_foldAll_iff (g g₁ : Graph) (o : Outcomes) (n : Nat) :
    (foldAll g₁ (Structured.of g).root).1.execute o (foldAll g₁ (Structured.of g).root).2.1 n =
        g₁.execute o (Structured.of g).root n ↔
      ∀ e ∈ (g₁.execute o (Structured.of g).root n).2,
        e.Finds (foldAll g₁ (Structured.of g).root).1 (foldAll g₁ (Structured.of g).root).2.1 := by
  refine ⟨fun h e he => Graph.execute_finds o _ _ n e (h ▸ he), fun h => ?_⟩
  have hfold := foldAll_replaces o (foldAll g₁ (Structured.of g).root).1.comparisonAt
    (foldAll g₁ (Structured.of g).root).2.1.carriers g₁ (Structured.of g).root (Structured.nodup_carriers g)
  rw [← Graph.run_eq_execute o g₁ _ _ _ n h]
  exact congrArg (Act.on · []) (hfold.runFrom_eq n n none nofun)

/-- Assigns a register in both arms of a comparison, and does so again as long as the register is zero. -/
def assignUntil : List Insn :=
  [.of (.jumpIf .eq 4) [.ofReg 0] none 0, .of .const [.lit 1 .int] (some (.plain 1)) 1, .of (.goto 5) [] none 2,
    .of .const [.lit 2 .int] (some (.plain 1)) 4, .of (.jumpIf .eq 0) [.ofReg 1] none 5, .of .ret [] none 7]

/-- The block at the end of the loop joins the folded comparison before it, and the loop finds no comparison there. -/
theorem execute_foldAll_assignUntil_ne :
    ∃ g o n, Graph.build assignUntil [] 8 = .ok g ∧
      (foldAll g (Structured.of g).root).1.execute o (foldAll g (Structured.of g).root).2.1 n ≠
        g.execute o (Structured.of g).root n := by
  refine ⟨_, ⟨fun _ _ => false, fun _ => false, fun _ => 0, fun _ => 0⟩, 1, rfl, fun h => ?_⟩
  have hend := congrArg Prod.fst h
  revert hend
  decide +kernel

end Conditionals

end JavaLift
