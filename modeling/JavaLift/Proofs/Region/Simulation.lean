import JavaLift.Proofs.Region.Spending
import JavaLift.Proofs.Flow.Onward
import JavaLift.Proofs.Region.Totality

namespace JavaLift

open Region

variable {g : Graph} {insns : List Insn} {tries : List TryRange} {length : Nat}

theorem Graph.formed_of_build (h : build insns tries length = .ok g) (htries : g.tries = []) : g.Formed := by
  have hclosed := build_closed h
  have honward := build_onward h
  have hquiet (b : Nat) : g.handlers b = [] := by
    refine List.eq_nil_iff_forall_not_mem.mpr fun n hn => ?_
    have hb : b < g.size := lt_of_mem_exits (List.mem_append_right _ hn)
    obtain ⟨t, ht, -⟩ := (hclosed.mem_handlers b hb n).mp hn
    rw [htries] at ht
    cases ht
  exact ⟨htries, hquiet, hclosed.entry_lt, build_reached h, fun b _ n hn =>
    hclosed.exits_lt b n (List.mem_append_left _ hn),
    fun b hb => (honward b hb).leads, fun b hb => (honward b hb).branch, fun b hb => (honward b hb).table⟩

namespace Dominance

theorem loops_of_formed (hg : g.Formed) : (Dominance.of g).Loops g := by
  have hloops (l : Loop) (hl : l ∈ (Dominance.of g).loops) :=
    (loops_of hg.entry hg.reached (hasIdoms_of hg.reached) (Dominance.of g).ipdom).natural l hl
  have hexits {b n : Nat} : n ∈ g.exits b ↔ n ∈ g.succs b := by simp [Graph.exits, hg.quiet b]
  refine ⟨fun l hl b hb => (((hloops l hl).body b).mp hb).1, fun l hl => (hloops l hl).header_mem hg.entry hg.reached,
    fun l hl b hb => (hloops l hl).latch_mem hg.entry hg.reached hb,
    fun l hl b hb hedge => (hloops l hl).back_mem hg.entry hg.reached hb (hexits.mpr hedge),
    fun l hl m hm hin hne => (hloops l hl).body_subset hg.entry hg.reached (hloops m hm) hin hne,
    fun l hl m hm hin hne latch hdecides hlatch hmem => ?_, fun _ _ => ipdomOf_lt⟩
  obtain ⟨negated, out, hlast⟩ := hdecides.testsLast
  have hout : l.header ∉ m.body := (hloops l hl).header_not_mem hg.entry hg.reached (hloops m hm) hin hne
  -- From the latch control only goes out of the outer loop or to its header, and neither is in the inner loop.
  have hleaves {n : Nat} (hn : n ∈ m.body) : n ∉ g.succs latch := by
    intro hedge
    rcases hlast.succs n hedge with rfl | rfl
    · exact hout hn
    · exact hlast.out_out ((hloops l hl).body_subset hg.entry hg.reached (hloops m hm) hin hne hn)
  obtain ⟨a, ha, hway⟩ := (((hloops m hm).body latch).mp hmem).2.resolve_left hlatch.symm
  cases hway with
  | root hroot _ _ =>
      obtain rfl := List.mem_singleton.mp hroot
      have hedge := ((mem_backEdges hg.entry hg.reached).mp (((hloops m hm).latches _).mp ha)).2.2.1
      exact hleaves ((hloops m hm).header_mem hg.entry hg.reached) (hexits.mp hedge)
  | step hbefore hedge _ _ =>
      exact hleaves (((hloops m hm).body _).mpr ⟨hbefore.lt, .inr ⟨a, ha, hbefore⟩⟩)
        (hexits.mp (Graph.mem_turned.mp hedge).2)

theorem endsInIf_of_latches (d : Dominance) {b : Nat} (hb : b ∈ d.latches g) : (g.block b).endsInIf = true := by
  obtain ⟨l, -, hb⟩ := List.mem_filterMap.mp hb
  split at hb
  · cases hb
  · obtain ⟨shape, hshape, hcond⟩ := Option.bind_eq_some_iff.mp hb
    obtain ⟨latch, negated, out, rfl, hlast⟩ := doWhileShape?_eq hshape
    cases hcond
    exact hlast.ends

end Dominance

/-- An execution in at most `n` rounds of a loop and `n` jumps keeps to the walk of the graph: it ends with the walk, or
makes its moves as far as the rounds and jumps go. -/
def KeepsTo (g : Graph) (o : Decisions) (n : Nat) (r : Except Exit Unit × List Move) : Prop :=
  r.1 = .error .left ∧ g.Stands o .ended r.2 ∨ r.1 = .error .spent ∧ n ≤ r.2.length + 1 ∧ ∃ c, g.Stands o c r.2

/-- Wherever one of the blocks has run, its decision has come next, and the execution has not ended in its place. -/
def Decided (latches : List Nat) (r : Except Exit Unit × List Move) : Prop :=
  Settled latches r.2 ∧ ∀ b ∈ latches, r.2.head? = some (.run b) → r.1 ≠ .ok ()

/-- The tree of a graph without exceptions fits it, and carries all blocks. -/
theorem root_fits (hg : g.Formed) (hred : (Structured.of g).irreducible = false) :
    Fits g ((Dominance.of g).latches g) [] g.entry (Structured.of g).root none ∧
      ∀ b < g.size, b ∈ carriers (Structured.of g).root := by
  obtain ⟨hfits, hall⟩ := everything_fits hg (Dominance.loops_of_formed hg)
  obtain ⟨m, hm, hroot⟩ := fits_ofList hfits
  obtain rfl : m = none := Option.eq_none_iff_forall_not_mem.mpr fun b hb => nomatch hm b hb
  rw [root_of hred]
  refine ⟨hroot, fun b hb => ?_⟩
  rw [carriers_ofList]
  exact hall b hb

theorem Decided.keepsTo {latches : List Nat} (hlatches : ∀ b ∈ latches, (g.block b).endsInIf = true) {root : Region}
    (hroot : Fits g latches [] g.entry root none) (hall : ∀ b < g.size, b ∈ carriers root) {o : Decisions} {n : Nat}
    (h : Decided latches (g.traverse o root n)) : KeepsTo g o n (g.traverse o root n) := by
  have hfinishes : Finishes g o latches (g.traverse o root n).1 (g.traverse o root n).2 :=
    (runFrom_leads hlatches hroot hall n n none (by simp) [] h.1).2 (.inr ⟨g.entry, rfl, .start⟩)
  have hgrows := @traverse_grows _ o _ _ _ hroot n
  generalize g.traverse o root n = r at h hfinishes hgrows
  obtain ⟨e, s⟩ := r
  cases e with
  | ok =>
      obtain ⟨b, hb, hstands⟩ := hfinishes
      obtain ⟨s', rfl⟩ := hstands.run_of_deciding
      exact absurd rfl (h.2 b hb rfl)
  | error e =>
      rcases hfinishes with ⟨rfl, hended⟩ | ⟨rfl, hstands⟩
      · exact .inl ⟨rfl, hended⟩
      · exact .inr ⟨rfl, hgrows rfl, hstands⟩

theorem KeepsTo.decided {latches : List Nat} (hlatches : ∀ b ∈ latches, (g.block b).endsInIf = true)
    {o : Decisions} {n : Nat}
    {r : Except Exit Unit × List Move} (h : KeepsTo g o n r) : Decided latches r := by
  rcases h with ⟨hleft, hended⟩ | ⟨hspent, -, c, hstands⟩
  · exact ⟨hended.settled hlatches, fun _ _ _ hok => nomatch hleft.symm.trans hok⟩
  · exact ⟨hstands.settled hlatches, fun _ _ _ hok => nomatch hspent.symm.trans hok⟩

/-- Whatever the decisions are, the execution of the tree of a graph without exceptions keeps to the walk of the graph
exactly if each block that decides a loop after its body is followed by that decision. -/
theorem Structured.keepsTo_iff_decided (h : Graph.build insns tries length = .ok g) (htries : g.tries = [])
    (hred : (Structured.of g).irreducible = false) (o : Decisions) (n : Nat) :
    KeepsTo g o n (g.traverse o (Structured.of g).root n) ↔
      Decided ((Dominance.of g).latches g) (g.traverse o (Structured.of g).root n) := by
  have hlatches : ∀ b ∈ (Dominance.of g).latches g, (g.block b).endsInIf = true :=
    fun b hb => (Dominance.of g).endsInIf_of_latches hb
  obtain ⟨hroot, hall⟩ := root_fits (Graph.formed_of_build h htries) hred
  exact ⟨KeepsTo.decided hlatches, Decided.keepsTo hlatches hroot hall⟩

def callUntil : List Insn :=
  [.of (.invoke .static ⟨"Foo", "g", [], .void⟩) [] none 0, .of (.jumpIf .eq 0) [.ofReg 0] none 1, .of .ret [] none 2]

theorem Structured.keepsTo_callUntil :
    ∃ g, Graph.build callUntil [] 3 = .ok g ∧
      KeepsTo g ⟨fun _ => false, fun _ => 0⟩ 2 (g.traverse ⟨fun _ => false, fun _ => 0⟩ (Structured.of g).root 2) := by
  obtain ⟨g, hbuild, htries, hred, hsettled, hlast⟩ : ∃ g, Graph.build callUntil [] 3 = .ok g ∧ g.tries.isEmpty = true ∧
      (Structured.of g).irreducible = false ∧
      (g.traverse ⟨fun _ => false, fun _ => 0⟩ (Structured.of g).root 2).2 = [.run 1, .decided 0 false, .run 0] ∧
      (Dominance.of g).latches g = [0] :=
    ⟨_, rfl, by decide +kernel, by decide +kernel, by decide +kernel, by decide +kernel⟩
  refine ⟨g, hbuild, (Structured.keepsTo_iff_decided hbuild (by simpa using htries) hred _ _).mpr ?_⟩
  rw [Decided, hsettled, hlast]
  refine ⟨?_, by simp⟩
  unfold Settled
  decide

/-- Chooses between `g` and `h`, and does it again as long as the register is zero. -/
def callOneUntil : List Insn :=
  [.of (.switchOn [1, 2] [3, 5] none) [.ofReg 0] none 0, .of .ret [] none 1,
    .of (.invoke .static ⟨"Foo", "g", [], .void⟩) [] none 3, .of (.goto 6) [] none 4,
    .of (.invoke .static ⟨"Foo", "h", [], .void⟩) [] none 5, .of (.jumpIf .eq 0) [.ofReg 0] none 6, .of .ret [] none 7]

def callOneUntilGraph : Graph :=
  ⟨#[⟨0, callOneUntil.take 1, [1, 2, 3], []⟩, ⟨1, (callOneUntil.drop 1).take 1, [], []⟩,
    ⟨3, (callOneUntil.drop 2).take 2, [4], []⟩, ⟨5, (callOneUntil.drop 4).take 1, [4], []⟩,
    ⟨6, (callOneUntil.drop 5).take 1, [5, 0], []⟩, ⟨7, callOneUntil.drop 6, [], []⟩], 0, []⟩

theorem everything_callOneUntil : ((everything callOneUntilGraph (Dominance.of callOneUntilGraph)).run .start).1 =
    [.loop .doWhile 0 (some 4) false (.switch 0 [(⟨[], true, 1⟩, .block 1),
      (⟨[1], false, 2⟩, .seq [.block 2, .block 4]), (⟨[2], false, 3⟩, .seq [.block 3, .goto 4])]), .block 5] := by
  cbv

/-- The comparison comes last in the first case, and the second case is executed after it. -/
theorem Structured.not_keepsTo_callOneUntil :
    ∃ g, Graph.build callOneUntil [] 8 = .ok g ∧ g.tries = [] ∧ (Structured.of g).irreducible = false ∧
      ¬ KeepsTo g ⟨fun _ => false, fun _ => 0⟩ 1
        (g.traverse ⟨fun _ => false, fun _ => 0⟩ (Structured.of g).root 1) := by
  have hred : (Structured.of callOneUntilGraph).irreducible = false := by decide +kernel
  have hmoves : (callOneUntilGraph.traverse ⟨fun _ => false, fun _ => 0⟩ (Structured.of callOneUntilGraph).root 1).2 =
      [.run 3, .run 4, .run 2, .selected 0 0, .run 0] := by
    rw [root_of hred, everything_callOneUntil]
    decide +kernel
  have hwalk : (callOneUntilGraph.walk ⟨fun _ => false, fun _ => 0⟩ 5).2 =
      [.decided 4 false, .run 4, .run 2, .selected 0 0, .run 0] := by decide +kernel
  refine ⟨callOneUntilGraph, by cbv, rfl, hred, fun hkeeps => ?_⟩
  obtain ⟨c, hstands⟩ : ∃ c, callOneUntilGraph.Stands ⟨fun _ => false, fun _ => 0⟩
    c [.run 3, .run 4, .run 2, .selected 0 0, .run 0] := by
    rw [KeepsTo, hmoves] at hkeeps
    rcases hkeeps with ⟨-, hended⟩ | ⟨-, -, hstands⟩
    · exact ⟨_, hended⟩
    · exact hstands
  exact absurd (hwalk.symm.trans (congrArg Prod.snd hstands)) (by simp)

end JavaLift
