import JavaLift.Flow.Graph
import Mathlib

namespace JavaLift

theorem Graph.block_of_size_le {g : Graph} {b : Nat} (h : g.size ≤ b) : g.block b = ⟨0, [], [], []⟩ := by
  rw [block, Array.getElem?_eq_none h]
  rfl

/-- What control does next: it runs a block, or the comparison or the switch at the end of one is decided. A switch is
decided by the number of an entry of its table, or a number past it. -/
inductive Move where
  | run (b : Nat)
  | decided (b : Nat) (holds : Bool)
  | selected (b : Nat) (entry : Nat)
deriving DecidableEq

/-- The outcomes of comparisons and switches, after the moves so far, the latest one first. -/
structure Decisions where
  holds : List Move → Bool
  entry : List Move → Nat

def Move.decides (b : Nat) : Move → Bool
  | .decided b' _ => b' == b
  | _ => false

/-- Each of the given blocks, wherever it has run, has been followed by its decision, if by anything. The latest move
comes first. -/
def Settled (latches : List Nat) (t : List Move) : Prop :=
  t.IsChain fun later earlier => ∀ b ∈ latches, earlier = .run b → later.decides b = true

/-- Where control is: before a block, before the decision at the end of a block, or at the end of the method. -/
inductive Control where
  | entering (b : Nat)
  | deciding (b : Nat)
  | ended
deriving DecidableEq

def Control.to : Option Nat → Control
  | some b => .entering b
  | none => .ended

def Op.isSwitch : Op → Bool
  | .switchOn .. => true
  | _ => false

def Block.endsInSwitch (b : Block) : Bool := b.terminator?.any fun i => i.op.isSwitch

namespace Block

theorem endsInIf_eq (b : Block) : b.endsInIf = b.exitOp?.any Op.isIf := by
  rw [Block.endsInIf, Block.exitOp?, Option.any_map]

theorem endsInSwitch_eq (b : Block) : b.endsInSwitch = b.exitOp?.any Op.isSwitch := by
  rw [Block.endsInSwitch, Block.exitOp?, Option.any_map]

theorem isExit_eq (b : Block) : b.isExit = b.exitOp?.any fun op => op == .ret || op == .throw := by
  rw [Block.isExit, Block.exitOp?, Option.any_map]

end Block

namespace Graph

variable (g : Graph) (o : Decisions)

def branchTo (b : Nat) (holds : Bool) : Option Nat :=
  match g.succs b with
  | [fall, target] => some (if holds then target else fall)
  | [only] => some only
  | _ => none

/-- An entry of the table of a switch: the block that it leads to and its key. -/
def entryOf (b n : Nat) : Option (Nat × Int) :=
  match (g.block b).exitOp? with
  | some (.switchOn keys targets _) => (keys.zip targets)[n]?.bind fun e => (g.blockAt? e.2).map (·, e.1)
  | _ => none

def selectTo (b n : Nat) : Option Nat := ((g.entryOf b n).map (·.1)) <|> (g.succs b).head?

def after (b : Nat) : Control :=
  if (g.block b).endsInIf || (g.block b).endsInSwitch then .deciding b
  else if (g.block b).isExit then .ended
  else .to (g.succs b).head?

def move : Control × List Move → Control × List Move
  | (.entering b, t) => (g.after b, .run b :: t)
  | (.deciding b, t) =>
    if (g.block b).endsInIf then (.to (g.branchTo b (o.holds t)), .decided b (o.holds t) :: t)
    else (.to (g.selectTo b (o.entry t)), .selected b (o.entry t) :: t)
  | (.ended, t) => (.ended, t)

/-- Where control is after some moves from the entry, and these moves, the latest one first. -/
def walk (n : Nat) : Control × List Move := (g.move o)^[n] (.entering g.entry, [])

theorem walk_succ (n : Nat) : g.walk o (n + 1) = g.move o (g.walk o n) := Function.iterate_succ_apply' _ _ _

theorem move_deciding (b : Nat) (t : List Move) :
    g.move o (.deciding b, t) =
      if (g.block b).endsInIf then (.to (g.branchTo b (o.holds t)), .decided b (o.holds t) :: t)
      else (.to (g.selectTo b (o.entry t)), .selected b (o.entry t) :: t) := rfl

def Stands (c : Control) (t : List Move) : Prop := g.walk o t.length = (c, t)

variable {g o}

section

variable {b : Nat}

theorem after_of_if (h : (g.block b).endsInIf = true) : g.after b = .deciding b := by simp [after, h]

theorem after_of_switch (h : (g.block b).endsInSwitch = true) : g.after b = .deciding b := by simp [after, h]

theorem after_of_exit (h : (g.block b).isExit = true) : g.after b = .ended := by
  unfold after
  rw [if_pos h, if_neg]
  unfold Block.isExit at h
  unfold Block.endsInIf Block.endsInSwitch
  cases hi : (g.block b).terminator? with
  | none => simp
  | some i =>
      have hop : i.op = .ret ∨ i.op = .throw := by simpa [hi] using h
      rcases hop with hop | hop <;> simp [hop, Op.isIf, Op.isSwitch]

/-- Where control is after a block that ends in no decision, return or throw. -/
theorem after_of_exitOp? {op : Op} (h : (g.block b).exitOp? = some op) (hplain : op.isIf = false ∧ op.isSwitch = false)
    (hexit : op ≠ .ret ∧ op ≠ .throw) : g.after b = .to (g.succs b).head? := by
  simp [after, Block.endsInIf_eq, Block.endsInSwitch_eq, Block.isExit_eq, h, hplain, hexit]

theorem endsInIf_of_switch (h : (g.block b).endsInSwitch = true) : ¬ (g.block b).endsInIf = true := by
  unfold Block.endsInSwitch at h
  unfold Block.endsInIf
  cases hi : (g.block b).terminator? with
  | none => simp
  | some i =>
      rw [hi, Option.any_some] at h
      cases hop : i.op <;> simp_all [Op.isIf, Op.isSwitch]

end

def Goes (g : Graph) (a b : Nat) : Prop :=
  g.after a = .entering b ∨ g.after a = .deciding a ∧ ∃ o t, (g.move o (.deciding a, t)).1 = .entering b

theorem to_eq_entering {k : Option Nat} {b : Nat} : Control.to k = .entering b ↔ k = some b := by
  cases k <;> simp [Control.to]

namespace Goes

variable {a b : Nat}

theorem branchTo (h : g.Goes a b) (hif : (g.block a).endsInIf = true) : ∃ holds, g.branchTo a holds = some b := by
  rw [Goes, after_of_if hif] at h
  obtain ⟨-, o, t, hmove⟩ := h.resolve_left (by simp)
  rw [move_deciding, if_pos hif] at hmove
  exact ⟨_, to_eq_entering.mp hmove⟩

theorem selectTo (h : g.Goes a b) (hswitch : (g.block a).endsInSwitch = true) : ∃ n, g.selectTo a n = some b := by
  rw [Goes, after_of_switch hswitch] at h
  obtain ⟨-, o, t, hmove⟩ := h.resolve_left (by simp)
  rw [move_deciding, if_neg (endsInIf_of_switch hswitch)] at hmove
  exact ⟨_, to_eq_entering.mp hmove⟩

theorem not_of_exit (hexit : (g.block a).isExit = true) : ¬ g.Goes a b := by
  rw [Goes, after_of_exit hexit]
  simp

theorem next (h : g.Goes a b) {k : Option Nat} (hafter : g.after a = .to k) : k = some b := by
  rw [Goes, hafter] at h
  refine to_eq_entering.mp (h.resolve_right fun hdeciding => ?_)
  cases k <;> simp [Control.to] at hdeciding

end Goes

theorem length_walk_le (n : Nat) : (g.walk o n).2.length ≤ n := by
  induction n with
  | zero => exact Nat.le_refl _
  | succ n ih =>
      rw [walk_succ]
      generalize g.walk o n = w at ih
      obtain ⟨c, t⟩ := w
      cases c with
      | entering b => exact Nat.succ_le_succ ih
      | deciding b =>
          rw [move_deciding]
          split
          · exact Nat.succ_le_succ ih
          · exact Nat.succ_le_succ ih
      | ended => exact Nat.le_succ_of_le ih

namespace Stands

variable {b : Nat} {t : List Move}

theorem start : g.Stands o (.entering g.entry) [] := rfl

theorem run (h : g.Stands o (.entering b) t) : g.Stands o (g.after b) (.run b :: t) := by
  rw [Stands, List.length_cons, walk_succ, h, move]

theorem decide (h : g.Stands o (.deciding b) t) (hb : (g.block b).endsInIf = true) :
    g.Stands o (.to (g.branchTo b (o.holds t))) (.decided b (o.holds t) :: t) := by
  rw [Stands, List.length_cons, walk_succ, h, move_deciding, if_pos hb]

theorem select (h : g.Stands o (.deciding b) t) (hb : ¬ (g.block b).endsInIf = true) :
    g.Stands o (.to (g.selectTo b (o.entry t))) (.selected b (o.entry t) :: t) := by
  rw [Stands, List.length_cons, walk_succ, h, move_deciding, if_neg hb]

theorem run_of_deciding (h : g.Stands o (.deciding b) t) : ∃ t', t = .run b :: t' := by
  have hto (k : Option Nat) : Control.to k ≠ .deciding b := by cases k <;> simp [Control.to]
  cases t with
  | nil => cases h
  | cons e t =>
      rw [Stands, List.length_cons, walk_succ] at h
      generalize g.walk o t.length = w at h
      obtain ⟨c, t'⟩ := w
      cases c with
      | entering b' =>
          obtain ⟨hafter, hmoves⟩ := Prod.mk.inj h
          unfold after at hafter
          split at hafter
          · cases hafter
            exact ⟨t', hmoves.symm⟩
          · split at hafter
            · cases hafter
            · exact absurd hafter (hto _)
      | deciding b' =>
          rw [move_deciding] at h
          split at h
          · exact absurd (Prod.mk.inj h).1 (hto _)
          · exact absurd (Prod.mk.inj h).1 (hto _)
      | ended => cases h

theorem before {c : Control} {m : Move} (h : g.Stands o c (m :: t)) :
    ∃ c', g.Stands o c' t ∧ g.move o (c', t) = (c, m :: t) := by
  rw [Stands, List.length_cons, walk_succ] at h
  have hlength := length_walk_le (g := g) (o := o) t.length
  have hwalk : g.walk o t.length = ((g.walk o t.length).1, (g.walk o t.length).2) := rfl
  generalize (g.walk o t.length).1 = c', (g.walk o t.length).2 = t' at hwalk hlength
  rw [hwalk] at h
  have ht : t' = t := by
    cases c' with
    | entering b => exact (List.cons.inj (Prod.mk.inj h).2).2
    | deciding b =>
        rw [move_deciding] at h
        split at h
        · exact (List.cons.inj (Prod.mk.inj h).2).2
        · exact (List.cons.inj (Prod.mk.inj h).2).2
    | ended =>
        obtain rfl : t' = m :: t := (Prod.mk.inj h).2
        rw [List.length_cons] at hlength
        omega
  subst ht
  exact ⟨c', hwalk, h⟩

theorem after_run {c : Control} (h : g.Stands o c (.run b :: t)) : c = g.after b := by
  obtain ⟨c', -, hmove⟩ := h.before
  cases c' with
  | entering b' =>
      obtain ⟨hc, ht⟩ := Prod.mk.inj hmove
      cases ht
      exact hc.symm
  | deciding b' =>
      rw [move_deciding] at hmove
      split at hmove <;> cases hmove
  | ended => exact absurd (Prod.mk.inj hmove).2 (List.cons_ne_self _ _).symm

/-- The walk itself decides right after each block that ends in a comparison. -/
theorem settled {c : Control} {latches : List Nat} (hlatches : ∀ b ∈ latches, (g.block b).endsInIf = true)
    (h : g.Stands o c t) : Settled latches t := by
  induction t generalizing c with
  | nil => exact .nil
  | cons m t ih =>
      obtain ⟨c', hbefore, hmove⟩ := h.before
      cases t with
      | nil => exact .singleton _
      | cons e t =>
          refine List.isChain_cons_cons.mpr ⟨fun b hb he => ?_, ih hbefore⟩
          subst he
          obtain rfl := hbefore.after_run
          rw [after_of_if (hlatches b hb), move_deciding, if_pos (hlatches b hb)] at hmove
          obtain rfl := (List.cons.inj (Prod.mk.inj hmove).2).1
          simp [Move.decides]

end Stands

end Graph

namespace Settled

variable {latches : List Nat} {t : List Move} {m : Move}

theorem tail (h : Settled latches (m :: t)) : Settled latches t := List.IsChain.tail h

theorem decides {b : Nat} (h : Settled latches (m :: .run b :: t)) (hb : b ∈ latches) : m.decides b = true :=
  (List.isChain_cons_cons.mp h).1 b hb rfl

end Settled

end JavaLift
