import JavaLift.Proofs.DefUse.Carried

namespace JavaLift

section

variable {e : Equations} {r r' : Reaching} {s t : NatSet} {b c k blocks count : Nat} {flag : Bool}

theorem Transfer.apply_mono {f : Transfer} (h : s.contains k = true → t.contains k = true)
    (hs : (f.apply s).contains k = true) : (f.apply t).contains k = true := by
  rw [contains_apply] at hs ⊢
  exact hs.imp_left (And.imp_left h)

theorem NatSet.contains_foldl {α : Type} {add : NatSet → α → NatSet} {P : α → Prop}
    (hadd : ∀ s x, (add s x).contains k = true ↔ s.contains k = true ∨ P x) (xs : List α) (s : NatSet) :
    (xs.foldl add s).contains k = true ↔ s.contains k = true ∨ ∃ x ∈ xs, P x := by
  induction xs generalizing s with
  | nil => simp
  | cons x xs ih => rw [List.foldl_cons, ih, hadd, List.exists_mem_cons_iff, or_assoc]

namespace Reaching

/-- What reaches a place according to the first also does according to the second. -/
structure Below (r r' : Reaching) : Prop where
  start : ∀ b k : Nat, (r.atStart b).contains k = true → (r'.atStart b).contains k = true
  stop : ∀ b k : Nat, (r.atEnd b).contains k = true → (r'.atEnd b).contains k = true

/-- All that the sets say: which definitions reach the start of which blocks, and which the end. -/
def facts (blocks count : Nat) (r : Reaching) : Finset (Bool × Nat × Nat) :=
  (Finset.univ ×ˢ Finset.range blocks ×ˢ Finset.range count).filter fun (stop, b, k) =>
    (if stop then r.atEnd b else r.atStart b).contains k = true

theorem card_facts_le (r : Reaching) (blocks count : Nat) : (r.facts blocks count).card ≤ 2 * blocks * count := by
  apply (Finset.card_filter_le _ _).trans
  simp [Finset.card_product, Nat.mul_assoc]

theorem Below.facts_subset (h : r.Below r') : r.facts blocks count ⊆ r'.facts blocks count := by
  rintro ⟨stop, b, k⟩ hmem
  simp only [facts, Finset.mem_filter] at hmem ⊢
  refine ⟨hmem.1, ?_⟩
  cases stop with
  | false => exact h.start b k hmem.2
  | true => exact h.stop b k hmem.2

@[simp] theorem atStart_none (count b : Nat) : (none count).atStart b = ∅ := by
  simp only [atStart, none, Array.getElem?_replicate]
  split <;> rfl

@[simp] theorem atEnd_none (count b : Nat) : (none count).atEnd b = ∅ := by
  simp only [atEnd, none, Array.getElem?_replicate]
  split <;> rfl

end Reaching

namespace Equations

theorem contains_incoming : (e.incoming r b).contains k = true ↔ b = e.entry ∧ e.params.contains k = true ∨
    (∃ p ∈ (e.preds[b]?).getD [], (r.atEnd p).contains k = true) ∨
      ∃ p ∈ (e.exceptionPreds[b]?).getD [],
        (r.atStart p).contains k = true ∨ (e.transfer p).made.contains k = true := by
  rw [incoming, NatSet.contains_foldl
      (P := fun p => (r.atStart p).contains k = true ∨ (e.transfer p).made.contains k = true),
    NatSet.contains_foldl (P := fun p => (r.atEnd p).contains k = true), or_assoc]
  · split <;> simp_all
  · intro s p
    rw [NatSet.contains_union, Bool.or_eq_true]
  · intro s p
    rw [NatSet.contains_union, NatSet.contains_union, Bool.or_eq_true, Bool.or_eq_true, or_assoc]

theorem incoming_mono (h : r.Below r') (hk : (e.incoming r b).contains k = true) :
    (e.incoming r' b).contains k = true := by
  rw [contains_incoming] at hk ⊢
  rcases hk with hk | ⟨p, hp, hk⟩ | ⟨p, hp, hk⟩
  · exact .inl hk
  · exact .inr (.inl ⟨p, hp, h.stop p k hk⟩)
  · exact .inr (.inr ⟨p, hp, hk.imp_left (h.start p k)⟩)

def outgoing (e : Equations) (r : Reaching) (b : Nat) : NatSet := (e.transfer b).apply (e.incoming r b)

def Balanced (e : Equations) (r : Reaching) (b : Nat) : Prop :=
  ∀ k, (r.atStart b).contains k = (e.incoming r b).contains k ∧ (r.atEnd b).contains k = (e.outgoing r b).contains k

def refresh (e : Equations) (r : Reaching) (b : Nat) : Reaching :=
  ⟨r.ins.setIfInBounds b (e.incoming r b), r.outs.setIfInBounds b (e.outgoing r b)⟩

theorem update_cases (e : Equations) (r : Reaching) (flag : Bool) (b : Nat) :
    e.Balanced r b ∧ e.update (r, flag) b = (r, flag) ∨
      ¬ e.Balanced r b ∧ e.update (r, flag) b = (e.refresh r b, true) := by
  have hiff : (e.outgoing r b == r.atEnd b && e.incoming r b == r.atStart b) = true ↔ e.Balanced r b := by
    rw [Bool.and_eq_true, NatSet.beq_iff, NatSet.beq_iff, ← forall_and]
    exact forall_congr' fun k => ⟨fun h => ⟨h.2.symm, h.1.symm⟩, fun h => ⟨h.2.symm, h.1.symm⟩⟩
  by_cases h : e.Balanced r b
  · exact .inl ⟨h, if_pos (hiff.mpr h)⟩
  · exact .inr ⟨h, if_neg (hiff.not.mpr h)⟩

theorem atStart_refresh (hb : b < r.ins.size) :
    (e.refresh r b).atStart c = if c = b then e.incoming r b else r.atStart c := by
  simp only [refresh, Reaching.atStart, Array.getElem?_setIfInBounds]
  by_cases h : c = b
  · simp [h, hb]
  · simp [h, Ne.symm h]

theorem atEnd_refresh (hb : b < r.outs.size) :
    (e.refresh r b).atEnd c = if c = b then e.outgoing r b else r.atEnd c := by
  simp only [refresh, Reaching.atEnd, Array.getElem?_setIfInBounds]
  by_cases h : c = b
  · simp [h, hb]
  · simp [h, Ne.symm h]

/-- Sets that the equations can only add to. -/
structure Rising (e : Equations) (r : Reaching) : Prop where
  ins : r.ins.size = e.transfers.size
  outs : r.outs.size = e.transfers.size
  start : ∀ b k : Nat, (r.atStart b).contains k = true → (e.incoming r b).contains k = true
  stop : ∀ b k : Nat, (r.atEnd b).contains k = true → (e.outgoing r b).contains k = true

namespace Rising

theorem below (h : e.Rising r) (hb : b < e.transfers.size) : r.Below (e.refresh r b) := by
  constructor
  · intro c k hk
    rw [atStart_refresh (h.ins ▸ hb)]
    split
    · rename_i hc
      exact h.start b k (hc ▸ hk)
    · exact hk
  · intro c k hk
    rw [atEnd_refresh (h.outs ▸ hb)]
    split
    · rename_i hc
      exact h.stop b k (hc ▸ hk)
    · exact hk

theorem refresh (h : e.Rising r) (hb : b < e.transfers.size) : e.Rising (e.refresh r b) := by
  have hbelow := h.below hb
  refine ⟨by simp [Equations.refresh, h.ins], by simp [Equations.refresh, h.outs], fun c k hk => ?_, fun c k hk => ?_⟩
  · rw [atStart_refresh (h.ins ▸ hb)] at hk
    apply incoming_mono hbelow
    split at hk
    · rename_i hc
      exact hc ▸ hk
    · exact h.start c k hk
  · rw [atEnd_refresh (h.outs ▸ hb)] at hk
    apply Transfer.apply_mono (incoming_mono hbelow)
    split at hk
    · rename_i hc
      exact hc ▸ hk
    · exact h.stop c k hk

theorem none (e : Equations) : e.Rising (.none e.transfers.size) :=
  ⟨Array.size_replicate, Array.size_replicate, fun b k h => by simp at h, fun b k h => by simp at h⟩

end Rising

/-- A block that is not in balance gets something new. -/
theorem card_facts_lt (h : e.Rising r) (hb : b < e.transfers.size) (hb' : ¬ e.Balanced r b)
    (hin : ∀ k, (e.incoming r b).contains k = true → k < count)
    (hout : ∀ k, (e.outgoing r b).contains k = true → k < count) :
    (r.facts e.transfers.size count).card < ((e.refresh r b).facts e.transfers.size count).card := by
  apply Finset.card_lt_card
  rw [Finset.ssubset_iff_of_subset (h.below hb).facts_subset]
  obtain ⟨k, hk⟩ := not_forall.mp hb'
  by_cases hstart : (r.atStart b).contains k = (e.incoming r b).contains k
  · have hstop : (r.atEnd b).contains k ≠ (e.outgoing r b).contains k := fun hstop => hk ⟨hstart, hstop⟩
    have hnew : (e.outgoing r b).contains k = true ∧ (r.atEnd b).contains k = false := by
      have hrise := h.stop b k
      revert hstop hrise
      cases (r.atEnd b).contains k <;> simp_all
    refine ⟨(true, b, k), ?_, ?_⟩
    · simp [Reaching.facts, hb, hout k hnew.1, atEnd_refresh (e := e) (h.outs ▸ hb), hnew.1]
    · simp [Reaching.facts, hnew.2]
  · have hnew : (e.incoming r b).contains k = true ∧ (r.atStart b).contains k = false := by
      have hrise := h.start b k
      revert hstart hrise
      cases (r.atStart b).contains k <;> simp_all
    refine ⟨(false, b, k), ?_, ?_⟩
    · simp [Reaching.facts, hb, hin k hnew.1, atStart_refresh (e := e) (h.ins ▸ hb), hnew.1]
    · simp [Reaching.facts, hnew.2]

theorem settle_succ (e : Equations) (rounds : Nat) (r : Reaching) :
    e.settle (rounds + 1) r = if (e.round r).2 then e.settle rounds (e.round r).1 else r := rfl

/-- A property of sets that the equations keep. Only numbers below `count` come up then. -/
structure Kept (e : Equations) (count : Nat) (P : Reaching → Prop) : Prop where
  incoming : ∀ (r : Reaching) (b k : Nat), P r → b < e.transfers.size → (e.incoming r b).contains k = true → k < count
  outgoing : ∀ (r : Reaching) (b k : Nat), P r → b < e.transfers.size → (e.outgoing r b).contains k = true → k < count
  refresh : ∀ (r : Reaching) (b : Nat), P r → b < e.transfers.size → e.Rising r → P (e.refresh r b)

section

variable {P : Reaching → Prop} (hP : e.Kept count P)
include hP

/-- The round so far: either nothing has changed, or there are more facts. -/
theorem foldl_update (bs : List Nat) (hbs : ∀ b ∈ bs, b < e.transfers.size) (s : Reaching × Bool)
    (hrise : e.Rising s.1) (hkept : P s.1) :
    e.Rising (bs.foldl e.update s).1 ∧ P (bs.foldl e.update s).1 ∧
      (bs.foldl e.update s = s ∧ (∀ b ∈ bs, e.Balanced s.1 b) ∨ (bs.foldl e.update s).2 = true ∧
        (s.1.facts e.transfers.size count).card < ((bs.foldl e.update s).1.facts e.transfers.size count).card) := by
  induction bs generalizing s with
  | nil => exact ⟨hrise, hkept, .inl ⟨rfl, nofun⟩⟩
  | cons b bs ih =>
      rw [List.forall_mem_cons] at hbs
      obtain ⟨r, flag⟩ := s
      rw [List.foldl_cons]
      rcases e.update_cases r flag b with ⟨hbal, heq⟩ | ⟨hbal, heq⟩
      · rw [heq]
        obtain ⟨hrise', hkept', hcase⟩ := ih hbs.2 (r, flag) hrise hkept
        refine ⟨hrise', hkept', hcase.imp_left fun h => ⟨h.1, ?_⟩⟩
        rw [List.forall_mem_cons]
        exact ⟨hbal, h.2⟩
      · rw [heq]
        have hmore := card_facts_lt hrise hbs.1 hbal (hP.incoming r b · hkept hbs.1) (hP.outgoing r b · hkept hbs.1)
        obtain ⟨hrise', hkept', hcase⟩ :=
          ih hbs.2 (e.refresh r b, true) (hrise.refresh hbs.1) (hP.refresh r b hkept hbs.1 hrise)
        refine ⟨hrise', hkept', .inr ?_⟩
        rcases hcase with ⟨hsame, -⟩ | ⟨hflag, hlt⟩
        · rw [hsame]
          exact ⟨rfl, hmore⟩
        · exact ⟨hflag, hmore.trans hlt⟩

theorem round_cases (hrise : e.Rising r) (hkept : P r) :
    e.round r = (r, false) ∧ (∀ b < e.transfers.size, e.Balanced r b) ∨
      (e.round r).2 = true ∧ e.Rising (e.round r).1 ∧ P (e.round r).1 ∧
        (r.facts e.transfers.size count).card < ((e.round r).1.facts e.transfers.size count).card := by
  obtain ⟨hrise', hkept', hcase⟩ :=
    foldl_update hP (List.range e.transfers.size) (fun b hb => List.mem_range.mp hb) (r, false) hrise hkept
  rcases hcase with ⟨hsame, hbal⟩ | ⟨hflag, hlt⟩
  · exact .inl ⟨hsame, fun b hb => hbal b (List.mem_range.mpr hb)⟩
  · exact .inr ⟨hflag, hrise', hkept', hlt⟩

/-- As many rounds as there can be facts come to rest. -/
theorem settle_spec (rounds : Nat) (r : Reaching) (hrise : e.Rising r) (hkept : P r)
    (hrounds : 2 * e.transfers.size * count < (r.facts e.transfers.size count).card + rounds) :
    P (e.settle rounds r) ∧ e.round (e.settle rounds r) = (e.settle rounds r, false) ∧
      ∀ b < e.transfers.size, e.Balanced (e.settle rounds r) b := by
  induction rounds generalizing r with
  | zero => exact absurd (r.card_facts_le _ _) (Nat.not_le.mpr hrounds)
  | succ rounds ih =>
      rw [settle_succ]
      rcases round_cases hP hrise hkept with ⟨hsame, hbal⟩ | ⟨hflag, hrise', hkept', hlt⟩
      · rw [hsame]
        exact ⟨hkept, hsame, hbal⟩
      · rw [hflag, if_pos rfl]
        exact ih _ hrise' hkept' (by omega)

theorem solve_spec (hnone : P (.none e.transfers.size)) :
    P (e.solve count) ∧ e.round (e.solve count) = (e.solve count, false) ∧
      ∀ b < e.transfers.size, e.Balanced (e.solve count) b :=
  settle_spec hP _ _ (.none e) hnone (by omega)

end

end Equations

end

namespace Chain

variable {g : Graph} {entry : List Register} {r : Reaching} {b k pos : Nat} {x : Def}

theorem size_transfers (g : Graph) (entry : List Register) : (equations g entry).transfers.size = g.size := by
  simp [equations, Equations.of, size_numberDefs]

theorem mem_preds_equations {p : Nat} (hb : b < g.size) :
    p ∈ ((equations g entry).preds[b]?).getD [] ↔ b ∈ g.succs p := by
  have hpreds : ((equations g entry).preds[b]?).getD [] = g.preds b := by simp [equations, Equations.of, hb]
  rw [hpreds, Graph.mem_preds, and_iff_right hb]

theorem mem_exceptionPreds_equations {p : Nat} (hb : b < g.size) :
    p ∈ ((equations g entry).exceptionPreds[b]?).getD [] ↔ b ∈ g.handlers p := by
  have hpreds : ((equations g entry).exceptionPreds[b]?).getD [] = g.exceptionPreds b := by
    simp [equations, Equations.of, hb]
  rw [hpreds, Graph.mem_exceptionPreds, and_iff_right hb]

theorem exists_transfer (entry : List Register) (hb : b < g.size) :
    ∃ row, (numberDefs g entry.length)[b]? = some row ∧ Row 0 b (collectDefs g entry) (g.block b).insns row ∧
      (equations g entry).transfer b = Transfer.upTo (collectDefs g entry).toArray row (g.block b).insns.length := by
  obtain ⟨row, hget, hrow⟩ := exists_row entry hb
  refine ⟨row, hget, hrow, ?_⟩
  rw [← hrow.size, Transfer.upTo_size]
  simp [Equations.transfer, equations, Equations.of, hget]

theorem contains_made (hb : b < g.size) (hx : (collectDefs g entry)[k]? = some x) :
    ((equations g entry).transfer b).made.contains k = true ↔ ∃ pos, x.site = .insn b pos := by
  obtain ⟨row, -, hrow, htransfer⟩ := exists_transfer entry hb
  rw [htransfer, Transfer.made_upTo_iff hrow hx le_rfl]
  constructor
  · rintro ⟨pos, -, hsite⟩
    exact ⟨pos, hsite⟩
  · rintro ⟨pos, hsite⟩
    rcases mem_collectDefs.mp (List.mem_of_getElem? hx) with ⟨_, -, rfl⟩ | ⟨b', pos', i, hi, hxi⟩
    · cases hsite
    · rw [defOf_site hxi] at hsite
      cases hsite
      exact ⟨pos, (List.getElem?_eq_some_iff.mp hi).1, defOf_site hxi⟩

structure Sound (g : Graph) (entry : List Register) (r : Reaching) : Prop where
  start : ∀ b k : Nat, (r.atStart b).contains k = true →
    ∃ x, (collectDefs g entry)[k]? = some x ∧ g.Carried x b 0
  stop : ∀ b k : Nat, (r.atEnd b).contains k = true →
    ∃ x, (collectDefs g entry)[k]? = some x ∧ g.Carried x b (g.block b).insns.length

namespace Sound

theorem incoming (h : Sound g entry r) (hb : b < g.size)
    (hk : ((equations g entry).incoming r b).contains k = true) :
    ∃ x, (collectDefs g entry)[k]? = some x ∧ g.Carried x b 0 := by
  rcases Equations.contains_incoming.mp hk with ⟨rfl, hparam⟩ | ⟨p, hp, hk⟩ | ⟨p, hp, hk | hk⟩
  · have hlt : k < entry.length := by
      change (NatSet.ofList (List.range entry.length)).contains k = true at hparam
      rwa [NatSet.contains_ofList, List.mem_range] at hparam
    have hlt' : k < (collectDefs g entry).length := by
      rw [collectDefs_eq, List.length_append, List.length_map]
      exact Nat.lt_add_right _ hlt
    have hx := List.getElem?_eq_getElem hlt'
    exact ⟨_, hx, .entry ((lt_length_iff_site hx).mp hlt)⟩
  · obtain ⟨x, hx, hcarried⟩ := h.stop p k hk
    exact ⟨x, hx, .edge hcarried ((mem_preds_equations hb).mp hp)⟩
  · obtain ⟨x, hx, hcarried⟩ := h.start p k hk
    exact ⟨x, hx, .thrown hcarried ((mem_exceptionPreds_equations hb).mp hp)⟩
  · have hhandler := (mem_exceptionPreds_equations hb).mp hp
    obtain ⟨row, -, hrow, htransfer⟩ := exists_transfer entry (Graph.lt_of_mem_handlers hhandler)
    obtain ⟨x, hx⟩ := Transfer.exists_def_of_made hrow le_rfl (htransfer ▸ hk)
    obtain ⟨pos, hsite⟩ := (contains_made (Graph.lt_of_mem_handlers hhandler) hx).mp hk
    exact ⟨x, hx, .thrownMade hsite hhandler⟩

theorem outgoing (h : Sound g entry r) (hb : b < g.size)
    (hk : ((equations g entry).outgoing r b).contains k = true) :
    ∃ x, (collectDefs g entry)[k]? = some x ∧ g.Carried x b (g.block b).insns.length := by
  obtain ⟨row, -, hrow, htransfer⟩ := exists_transfer entry hb
  rw [Equations.outgoing, htransfer] at hk
  obtain ⟨x, hx⟩ : ∃ x, (collectDefs g entry)[k]? = some x := by
    rcases Transfer.exists_def_of_apply hrow le_rfl hk with hin | hx
    · obtain ⟨x, hx, -⟩ := h.incoming hb hin
      exact ⟨x, hx⟩
    · exact hx
  refine ⟨x, hx, Transfer.carried_of_apply hrow hx (fun hin => ?_) le_rfl hk⟩
  obtain ⟨y, hy, hcarried⟩ := h.incoming hb hin
  cases hx.symm.trans hy
  exact hcarried

theorem refresh (h : Sound g entry r) (hb : b < g.size) (hrise : (equations g entry).Rising r) :
    Sound g entry ((equations g entry).refresh r b) := by
  have hlt : b < (equations g entry).transfers.size := by rwa [size_transfers]
  constructor
  · intro c k hk
    rw [Equations.atStart_refresh (hrise.ins ▸ hlt)] at hk
    split at hk
    · rename_i hc
      exact hc ▸ h.incoming hb hk
    · exact h.start c k hk
  · intro c k hk
    rw [Equations.atEnd_refresh (hrise.outs ▸ hlt)] at hk
    split at hk
    · rename_i hc
      exact hc ▸ h.outgoing hb hk
    · exact h.stop c k hk

theorem none (g : Graph) (entry : List Register) (count : Nat) : Sound g entry (.none count) :=
  ⟨fun b k h => by simp at h, fun b k h => by simp at h⟩

/-- What is carried somewhere has a number that the rounds count with. -/
theorem kept (g : Graph) (entry : List Register) :
    (equations g entry).Kept (collectDefs g entry).length (Sound g entry) := by
  have hlt {k : Nat} {x : Def} (hx : (collectDefs g entry)[k]? = some x) : k < (collectDefs g entry).length := by
    exact (List.getElem?_eq_some_iff.mp hx).1
  constructor
  · intro r b k h hb hk
    obtain ⟨x, hx, -⟩ := h.incoming (size_transfers g entry ▸ hb) hk
    exact hlt hx
  · intro r b k h hb hk
    obtain ⟨x, hx, -⟩ := h.outgoing (size_transfers g entry ▸ hb) hk
    exact hlt hx
  · intro r b h hb hrise
    exact h.refresh (size_transfers g entry ▸ hb) hrise

end Sound

theorem sound_reached (g : Graph) (entry : List Register) : Sound g entry (reached g entry) :=
  (Equations.solve_spec (Sound.kept g entry) (Sound.none g entry _)).1

/-- The rounds end because one of them changes nothing. -/
theorem round_reached (g : Graph) (entry : List Register) :
    (equations g entry).round (reached g entry) = (reached g entry, false) :=
  (Equations.solve_spec (Sound.kept g entry) (Sound.none g entry _)).2.1

theorem balanced_reached (hb : b < g.size) : (equations g entry).Balanced (reached g entry) b :=
  (Equations.solve_spec (Sound.kept g entry) (Sound.none g entry _)).2.2 b (by rwa [size_transfers])

/-- Within a block the set is that of the start with what the instructions before have done. -/
theorem contains_of_carried {row : Array (Option Nat)} (hx : (collectDefs g entry)[k]? = some x)
    (h : g.Carried x b pos) (hb : b < g.size) (hrow : Row 0 b (collectDefs g entry) (g.block b).insns row) :
    ((Transfer.upTo (collectDefs g entry).toArray row pos).apply ((reached g entry).atStart b)).contains k = true := by
  -- What has come in balance holds what comes to the block.
  have hstart {b : Nat} (hb : b < g.size)
      (hin : ((equations g entry).incoming (reached g entry) b).contains k = true) :
      ((reached g entry).atStart b).contains k = true := by
    rwa [(balanced_reached hb k).1]
  induction h generalizing row with
  | entry hsite =>
      rw [Transfer.upTo_zero, Transfer.apply_empty]
      refine hstart hb (Equations.contains_incoming.mpr (.inl ⟨rfl, ?_⟩))
      change (NatSet.ofList (List.range entry.length)).contains k = true
      rw [NatSet.contains_ofList, List.mem_range]
      exact (lt_length_iff_site hx).mpr hsite
  | made hsite =>
      rcases mem_collectDefs.mp (List.mem_of_getElem? hx) with ⟨_, -, rfl⟩ | ⟨b', pos', i, hi, hxi⟩
      · cases hsite
      · rw [defOf_site hxi] at hsite
        cases hsite
        rw [Transfer.apply_upTo_succ hrow hi hx]
        exact .inr (defOf_site hxi)
  | next _ hi hkeeps ih =>
      rw [Transfer.apply_upTo_succ hrow hi hx]
      exact .inl ⟨ih hb hrow, hkeeps⟩
  | @edge p c _ hc ih =>
      have hp := Graph.lt_of_mem_succs hc
      obtain ⟨row', -, hrow', htransfer⟩ := exists_transfer entry hp
      rw [Transfer.upTo_zero, Transfer.apply_empty]
      refine hstart hb (Equations.contains_incoming.mpr (.inr (.inl ⟨p, (mem_preds_equations hb).mpr hc, ?_⟩)))
      rw [(balanced_reached hp k).2, Equations.outgoing, htransfer]
      exact Transfer.apply_mono (fun h => by rwa [← (balanced_reached hp k).1]) (ih hp hrow')
  | @thrown p c _ hc ih =>
      have hp := Graph.lt_of_mem_handlers hc
      obtain ⟨row', -, hrow', -⟩ := exists_transfer entry hp
      rw [Transfer.upTo_zero, Transfer.apply_empty]
      have hmem := (@mem_exceptionPreds_equations g entry _ p hb).mpr hc
      refine hstart hb (Equations.contains_incoming.mpr (.inr (.inr ⟨p, hmem, .inl ?_⟩)))
      simpa [Transfer.upTo_zero, Transfer.apply_empty] using ih hp hrow'
  | @thrownMade p c pos hsite hc =>
      rw [Transfer.upTo_zero, Transfer.apply_empty]
      have hmem := (@mem_exceptionPreds_equations g entry _ p hb).mpr hc
      refine hstart hb (Equations.contains_incoming.mpr (.inr (.inr ⟨p, hmem, .inr ?_⟩)))
      exact (contains_made (Graph.lt_of_mem_handlers hc) hx).mpr ⟨pos, hsite⟩

/-- The definitions at the start of a block are those that are carried there. -/
theorem contains_atStart (hb : b < g.size) : ((reached g entry).atStart b).contains k = true ↔
    ∃ x, (collectDefs g entry)[k]? = some x ∧ g.Carried x b 0 := by
  constructor
  · exact (sound_reached g entry).start b k
  · rintro ⟨x, hx, hcarried⟩
    obtain ⟨row, -, hrow, -⟩ := exists_transfer entry hb
    simpa [Transfer.upTo_zero, Transfer.apply_empty] using contains_of_carried hx hcarried hb hrow

end Chain

end JavaLift
