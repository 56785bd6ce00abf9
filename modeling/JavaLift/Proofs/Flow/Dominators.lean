import JavaLift.Flow.Dominance
import JavaLift.Proofs.Flow.Reach

namespace JavaLift

namespace Digraph

variable {g : Digraph} {blocked : Nat → Bool} {roots : List Nat} {root a b c : Nat}

/-- A way that leads to `c` but cannot lead to `b` does not pass it. -/
theorem Reaches.past (h : g.Reaches blocked roots c) (hb : ¬g.Reaches blocked roots b) :
    g.Reaches (· == b) roots c := by
  have hne {n : Nat} (hn : g.Reaches blocked roots n) : (n == b) = false := beq_false_of_ne fun he => hb (he ▸ hn)
  induction h with
  | root hroot hlt hfree => exact .root hroot hlt (hne (.root hroot hlt hfree))
  | step hbefore hedge hlt hfree ih => exact .step ih hedge hlt (hne (.step hbefore hedge hlt hfree))

/-- Every way from the root to `b` passes `a`. -/
def Dominates (g : Digraph) (root a b : Nat) : Prop := ¬g.Reaches (· == a) [root] b

theorem Dominates.refl (g : Digraph) (root b : Nat) : g.Dominates root b b := fun h => by simpa using h.free

/-- What a way leads to, it has led to the dominators of before. -/
theorem Dominates.reaches (hdom : g.Dominates root b c) (h : g.Reaches blocked [root] c) :
    g.Reaches blocked [root] b :=
  by_contra fun hb => hdom (h.past hb)

theorem Dominates.trans (hab : g.Dominates root a b) (hbc : g.Dominates root b c) : g.Dominates root a c := fun h =>
  hab (hbc.reaches h)

theorem Dominates.antisymm (hab : g.Dominates root a b) (hba : g.Dominates root b a)
    (hb : g.Reaches (fun _ => false) [root] b) : a = b := by
  by_contra hne
  exact (hb.one_first hne).elim hba hab

/-- On the way to a node, two dominators of it come one after the other. -/
theorem Dominates.total (ha : g.Dominates root a c) (hb : g.Dominates root b c)
    (hc : g.Reaches (fun _ => false) [root] c) : g.Dominates root a b ∨ g.Dominates root b a := by
  by_contra hnone
  obtain ⟨hab, hba⟩ := not_or.mp hnone
  have hpasta : g.Reaches (· == a) [root] b := not_not.mp hab
  have hpastb : g.Reaches (· == b) [root] a := not_not.mp hba
  have hne : a ≠ b := fun he => hab (he ▸ .refl g root b)
  -- If each is come to without the other, whatever a way leads to is come to without one of them.
  have hany (n : Nat) (hn : g.Reaches (fun _ => false) [root] n) :
      g.Reaches (· == a) [root] n ∨ g.Reaches (· == b) [root] n := by
    induction hn with
    | @root n hroot hlt _ =>
        by_cases he : n = a
        · exact .inr (.root hroot hlt (beq_false_of_ne fun heb => hne (he ▸ heb)))
        · exact .inl (.root hroot hlt (beq_false_of_ne he))
    | @step m n _ hedge hlt _ ih =>
        rcases ih with hm | hm
        · by_cases he : n = a
          · exact .inr (he ▸ hpastb)
          · exact .inl (.step hm hedge hlt (beq_false_of_ne he))
        · by_cases he : n = b
          · exact .inl (he ▸ hpasta)
          · exact .inr (.step hm hedge hlt (beq_false_of_ne he))
  exact (hany c hc).elim ha hb

theorem root_dominates (g : Digraph) (root b : Nat) : g.Dominates root root b := by
  intro h
  induction h with
  | root hroot _ hfree => simp [List.mem_singleton.mp hroot] at hfree
  | step _ _ _ _ ih => exact ih

theorem dominators_dominates (ha : a < g.size) (hb : g.Reaches (fun _ => false) [root] b) :
    (g.dominators root).dominates a b = true ↔ g.Dominates root a b := by
  refine (dominates_iff ha hb).trans ⟨?_, .inr⟩
  rintro (rfl | hdom)
  · exact .refl g root a
  · exact hdom

/-- The last of the dominators of a node before itself. -/
structure Immediate (g : Digraph) (root c b : Nat) : Prop where
  lt : c < g.size
  ne : c ≠ b
  dominates : g.Dominates root c b
  last : ∀ a < g.size, a ≠ b → g.Dominates root a b → g.Dominates root a c

theorem Immediate.unique (ha : g.Immediate root a b) (hc : g.Immediate root c b)
    (hb : g.Reaches (fun _ => false) [root] b) : a = c :=
  (hc.last a ha.lt ha.ne ha.dominates).antisymm (ha.last c hc.lt hc.ne hc.dominates) (hc.dominates.reaches hb)

section

variable (hb : g.Reaches (fun _ => false) [root] b)
include hb

theorem mem_strict : a ∈ (g.dominators root).strict b ↔ a < g.size ∧ a ≠ b ∧ g.Dominates root a b := by
  have hsize : (g.dominators root).reached.size = g.size := size_reach g _ [root]
  simp only [Dominators.strict, List.mem_filter, List.mem_range, hsize, Bool.and_eq_true, bne_iff_ne]
  exact and_congr_right fun ha => and_congr_right fun _ => dominators_dominates ha hb

/-- Of some dominators of a node, one is the last. -/
theorem exists_last {as : List Nat} (hne : as ≠ []) (hdom : ∀ a ∈ as, g.Dominates root a b) :
    ∃ c ∈ as, ∀ a ∈ as, g.Dominates root a c := by
  induction as with
  | nil => exact absurd rfl hne
  | cons first as ih =>
      rw [List.forall_mem_cons] at hdom
      by_cases hnil : as = []
      · exact ⟨first, List.mem_cons_self, by simp [hnil, Dominates.refl]⟩
      obtain ⟨c, hc, hlast⟩ := ih hnil hdom.2
      rcases hdom.1.total (hdom.2 c hc) hb with hfirst | hfirst
      · exact ⟨c, List.mem_cons_of_mem first hc, List.forall_mem_cons.mpr ⟨hfirst, hlast⟩⟩
      · refine ⟨first, List.mem_cons_self, List.forall_mem_cons.mpr ⟨.refl g root first, fun a ha => ?_⟩⟩
        exact (hlast a ha).trans hfirst

theorem exists_immediate (hroot : root < g.size) (hne : b ≠ root) : ∃ c, g.Immediate root c b := by
  have hmem := (mem_strict hb).mpr ⟨hroot, hne.symm, g.root_dominates root b⟩
  obtain ⟨c, hc, hlast⟩ := exists_last hb (List.ne_nil_of_mem hmem) fun a ha => ((mem_strict hb).mp ha).2.2
  obtain ⟨hlt, hcb, hdom⟩ := (mem_strict hb).mp hc
  exact ⟨c, hlt, hcb, hdom, fun a ha hab hadom => hlast a ((mem_strict hb).mpr ⟨ha, hab, hadom⟩)⟩

theorem immediate?_eq_some : (g.dominators root).immediate? b = some c ↔ g.Immediate root c b := by
  have hsound {c : Nat} (hc : (g.dominators root).immediate? b = some c) : g.Immediate root c b := by
    obtain ⟨hlt, hne, hdom⟩ := (mem_strict hb).mp (List.mem_of_find?_eq_some hc)
    refine ⟨hlt, hne, hdom, fun a ha hab hadom => ?_⟩
    have hall := List.find?_some (p := fun c => ((g.dominators root).strict b).all fun a =>
      (g.dominators root).dominates a c) hc
    exact (dominators_dominates ha (hdom.reaches hb)).mp
      (List.all_eq_true.mp hall a ((mem_strict hb).mpr ⟨ha, hab, hadom⟩))
  refine ⟨hsound, fun hc => ?_⟩
  have hmem := (mem_strict hb).mpr ⟨hc.lt, hc.ne, hc.dominates⟩
  have hfound : ((g.dominators root).immediate? b).isSome := by
    refine List.find?_isSome.mpr ⟨c, hmem, List.all_eq_true.mpr fun a ha => ?_⟩
    obtain ⟨hlt, hne, hdom⟩ := (mem_strict hb).mp ha
    exact (dominators_dominates hlt (hc.dominates.reaches hb)).mpr (hc.last a hlt hne hdom)
  obtain ⟨c', hc'⟩ := Option.isSome_iff_exists.mp hfound
  rw [hc', (hsound hc').unique hc hb]

end

def rank (g : Digraph) (root b : Nat) : Nat :=
  ((Finset.range g.size).filter fun a => (g.dominators root).dominates a b).card

theorem rank_pos (g : Digraph) (hb : g.Reaches (fun _ => false) [root] b) : 0 < g.rank root b := by
  refine Finset.card_pos.mpr ⟨b, Finset.mem_filter.mpr ⟨Finset.mem_range.mpr hb.lt, ?_⟩⟩
  exact (dominators_dominates hb.lt hb).mpr (.refl g root b)

theorem rank_le (g : Digraph) (root b : Nat) : g.rank root b ≤ g.size :=
  (Finset.card_filter_le _ _).trans_eq (Finset.card_range g.size)

/-- What dominates the immediate dominator dominates the node, and the node itself is one dominator more. -/
theorem Immediate.rank_lt (hc : g.Immediate root c b) (hb : g.Reaches (fun _ => false) [root] b) :
    g.rank root c < g.rank root b := by
  have hreached := hc.dominates.reaches hb
  refine Finset.card_lt_card ((Finset.ssubset_iff_of_subset fun a ha => ?_).mpr ⟨b, ?_, fun hmem => ?_⟩)
  · obtain ⟨ha, hdom⟩ := Finset.mem_filter.mp ha
    have hlt := Finset.mem_range.mp ha
    refine Finset.mem_filter.mpr ⟨ha, (dominators_dominates hlt hb).mpr ?_⟩
    exact ((dominators_dominates hlt hreached).mp hdom).trans hc.dominates
  · exact Finset.mem_filter.mpr ⟨Finset.mem_range.mpr hb.lt, (dominators_dominates hb.lt hb).mpr (.refl g root b)⟩
  · have hback := (dominators_dominates hb.lt hreached).mp (Finset.mem_filter.mp hmem).2
    exact hc.ne (hc.dominates.antisymm hback hb)

end Digraph

def Graph.Dominates (g : Graph) (a b : Nat) : Prop := g.digraph.Dominates g.entry a b

/-- A table that has the immediate dominators of the blocks. -/
structure Graph.HasIdoms (g : Graph) (idom : Array (Option Nat)) : Prop where
  size : idom.size = g.size
  immediate : ∀ b < g.size, ∀ c, (idom[b]?).join = some c ↔ g.digraph.Immediate g.entry c b

namespace Dominance

variable {g : Graph} {idom : Array (Option Nat)} {a b c : Nat}

/-- Climbing in a table of immediate dominators takes no more steps than a block has dominators, and comes to all of
them. -/
theorem climbs_iff (hidom : g.HasIdoms idom) (hentry : g.entry < g.size) (ha : a < g.size) {steps : Nat}
    (hb : g.digraph.Reaches (fun _ => false) [g.entry] b) (hsteps : g.digraph.rank g.entry b ≤ steps) :
    climbs idom a steps b = true ↔ g.Dominates a b := by
  induction steps generalizing b with
  | zero => exact absurd (g.digraph.rank_pos hb) (by omega)
  | succ steps ih =>
      rw [climbs, Bool.or_eq_true, beq_iff_eq]
      by_cases he : b = a
      · exact iff_of_true (.inl he) (he ▸ .refl g.digraph g.entry b)
      rw [or_iff_right he]
      cases hc : (idom[b]?).join with
      | none =>
          refine iff_of_false (by simp) fun hdom => ?_
          have hroot : b = g.entry := by
            by_contra hne
            obtain ⟨c, himmediate⟩ := Digraph.exists_immediate hb hentry hne
            rw [(hidom.immediate b hb.lt c).mpr himmediate] at hc
            cases hc
          exact he (hdom.antisymm (hroot ▸ g.digraph.root_dominates g.entry a) hb).symm
      | some c =>
          have himmediate := (hidom.immediate b hb.lt c).mp hc
          have hrank := himmediate.rank_lt hb
          rw [Option.any_some, ih (himmediate.dominates.reaches hb) (by omega)]
          exact ⟨fun hdom => hdom.trans himmediate.dominates, himmediate.last a ha (Ne.symm he)⟩

theorem ofTables_dominates_iff (hidom : g.HasIdoms idom) (ipdom : Array (Option Nat)) (hentry : g.entry < g.size)
    (ha : a < g.size) (hb : g.digraph.Reaches (fun _ => false) [g.entry] b) :
    (ofTables g idom ipdom).dominates a b = true ↔ g.Dominates a b :=
  climbs_iff hidom hentry ha hb (hidom.size ▸ g.digraph.rank_le g.entry b)

theorem hasIdoms_of (hreached : ∀ b < g.size, g.digraph.Reaches (fun _ => false) [g.entry] b) :
    g.HasIdoms (Dominance.of g).idom := by
  refine ⟨by simp [Dominance.of, ofTables], fun b hb c => ?_⟩
  have hfound : ((Dominance.of g).idom[b]?).join = (g.digraph.dominators g.entry).immediate? b := by
    simp [Dominance.of, ofTables, hb]
  rw [hfound, Digraph.immediate?_eq_some (hreached b hb)]

end Dominance

end JavaLift
