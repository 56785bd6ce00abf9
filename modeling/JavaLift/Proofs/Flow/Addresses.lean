import JavaLift.Proofs.Flow.Ranges

namespace JavaLift.Graph

variable {g g' g'' : Graph} {insns : List Insn} {tries : List TryRange} {length : Nat}

/-- Blocks are known by their offsets. -/
def Apart (g : Graph) : Prop := ∀ b < g.size, ∀ c < g.size, (g.block b).start = (g.block c).start → b = c

/-- The targets of an instruction are the offsets of blocks that control goes on to. -/
def Addressed (g : Graph) : Prop :=
  ∀ b, ∀ i ∈ (g.block b).insns, ∀ t ∈ i.op.targets, ∃ c ∈ g.succs b, (g.block c).start = t

theorem build_apart (h : build insns tries length = .ok g) : g.Apart := by
  obtain ⟨hne, -, drafts, regions, hdrafted, -, rfl⟩ := build_eq_ok h
  obtain ⟨old, hold⟩ := selects_pruned (hdrafted.closed hne)
  intro b hb c hc hsame
  rw [hold.start b hb, hold.start c hc] at hsame
  obtain ⟨hlt, hfirst⟩ := getElem?_startsOf.mp (hdrafted.getElem?_starts (hold.lt b hb))
  obtain ⟨hlt', hfirst'⟩ := getElem?_startsOf.mp (hdrafted.getElem?_starts (hold.lt c hc))
  rw [hsame, hfirst', Option.some.injEq] at hfirst
  have heq := blockStart_inj hlt'.le hlt.le hfirst
  rcases Nat.lt_trichotomy b c with hbc | rfl | hcb
  · exact absurd heq.symm (hold.mono b c hbc hc).ne
  · rfl
  · exact absurd heq (hold.mono c b hcb hb).ne

/-- The last instruction of a block leads to the blocks at its targets. -/
theorem build_addressed (hin : InOrder insns length) (h : build insns tries length = .ok g) : g.Addressed := by
  obtain ⟨-, hcheck, -⟩ := build_eq_ok h
  obtain ⟨first, hg⟩ := (build_mirrors hin).1 g h
  intro b i hi t ht
  have hb : b < g.size := by
    by_contra hb
    rw [block_of_size_le (Nat.le_of_not_lt hb)] at hi
    cases hi
  obtain ⟨k, hk⟩ := List.getElem?_of_mem hi
  have hlast := hg.terminator b hb k i hk (Op.isTerminator_of_target ht)
  have hhere : insns[first b + ((g.block b).insns.length - 1)]? = some i := by
    rw [← hlast, Nat.add_sub_cancel, hg.getElem? hb (List.getElem?_eq_some_iff.mp hk).1, hk]
  obtain ⟨n, hn⟩ := exists_firstAt (checkTargets_eq_ok.mp hcheck t (mem_bounds_of_target hhere ht)).2
  have hleads : Leads insns _ n := .jump hhere ht hn
  obtain ⟨c, hc, rfl⟩ := hg.leads b hb n hleads
  refine ⟨c, (hg.succs b hb c).mpr ⟨hc, hleads⟩, ?_⟩
  obtain ⟨j, hj, hoffset, -⟩ := firstAt_eq_some.mp hn
  have hhead := hg.start c hc
  rw [List.head?_eq_getElem?, ← hg.getElem? hc (hg.pos hc), Nat.add_zero, hj] at hhead
  exact (Option.some.inj hhead).symm.trans hoffset

/-- The blocks are at the offsets of those of another graph. -/
structure Aligned (g g' : Graph) : Prop where
  size : g'.size = g.size
  start : ∀ b, (g'.block b).start = (g.block b).start

/-- Only the instructions of blocks differ, and none has targets that are not those of an instruction that was there. -/
structure Reworked (g g' : Graph) : Prop where
  size : g'.size = g.size
  rest : ∀ b, g'.block b = { g.block b with insns := (g'.block b).insns }
  targets : ∀ b, ∀ j ∈ (g'.block b).insns, ∀ t ∈ j.op.targets, ∃ i ∈ (g.block b).insns, t ∈ i.op.targets

theorem Aligned.refl (g : Graph) : Aligned g g := ⟨rfl, fun _ => rfl⟩

theorem Aligned.trans (h : Aligned g g') (h' : Aligned g' g'') : Aligned g g'' :=
  ⟨h'.size.trans h.size, fun b => (h'.start b).trans (h.start b)⟩

theorem Aligned.apart (h : Aligned g g') (hg : g.Apart) : g'.Apart := by
  intro b hb c hc hsame
  rw [h.size] at hb hc
  rw [h.start, h.start] at hsame
  exact hg b hb c hc hsame

theorem aligned_setInsns (g : Graph) (b : Nat) (is : List Insn) : Aligned g (g.setInsns b is) := by
  refine ⟨by simp [setInsns, Graph.size], fun c => ?_⟩
  simp only [block, setInsns, Array.getElem?_modify]
  split
  · cases g.blocks[c]? <;> rfl
  · rfl

namespace Reworked

theorem refl (g : Graph) : Reworked g g := ⟨rfl, fun _ => rfl, fun _ j hj _ ht => ⟨j, hj, ht⟩⟩

theorem trans (h : Reworked g g') (h' : Reworked g' g'') : Reworked g g'' where
  size := h'.size.trans h.size
  rest b := by rw [h'.rest, h.rest]
  targets b j hj t ht := by
    obtain ⟨i, hi, ht⟩ := h'.targets b j hj t ht
    exact h.targets b i hi t ht

theorem aligned (h : Reworked g g') : Aligned g g' := ⟨h.size, fun b => by rw [h.rest]⟩

theorem succs (h : Reworked g g') (b : Nat) : g'.succs b = g.succs b := by rw [Graph.succs, h.rest, Graph.succs]

theorem handlers (h : Reworked g g') (b : Nat) : g'.handlers b = g.handlers b := by
  rw [Graph.handlers, h.rest, Graph.handlers]

theorem addressed (h : Reworked g g') (hg : g.Addressed) : g'.Addressed := by
  intro b j hj t ht
  obtain ⟨i, hi, ht⟩ := h.targets b j hj t ht
  obtain ⟨c, hc, hstart⟩ := hg b i hi t ht
  exact ⟨c, h.succs b ▸ hc, (h.aligned.start c).trans hstart⟩

theorem closed (h : Reworked g g') (hentry : g'.entry = g.entry) (htries : g'.tries = g.tries) (hg : g.Closed) :
    g'.Closed where
  entry_lt := by
    rw [hentry, h.size]
    exact hg.entry_lt
  exits_lt b n hn := by
    rw [exits, h.succs, h.handlers] at hn
    exact h.size ▸ hg.exits_lt b n hn
  covered_lt t ht b hb := h.size ▸ hg.covered_lt t (htries ▸ ht) b hb
  mem_handlers b hb x := by
    rw [h.handlers, htries]
    exact hg.mem_handlers b (h.size ▸ hb) x

end Reworked

end JavaLift.Graph
