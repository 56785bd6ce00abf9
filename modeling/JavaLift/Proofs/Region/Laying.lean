import JavaLift.Proofs.Flow.Build
import JavaLift.Proofs.Region.Following

namespace JavaLift

namespace Region

/-- Among the regions, a loop decides at the block whether it goes on. -/
def Decides (regions : List Region) (b : Nat) : Prop :=
  ∃ kind header cond negated body, .loop kind header cond negated body ∈ regions ∧
    (kind = .whileDo ∧ header = b ∨ kind = .doWhile ∧ cond = some b)

variable {regions regions' : List Region} {b h : Nat}

def isLoop : Region → Bool
  | .loop .. => true
  | _ => false

theorem Decides.any (hdecides : Decides regions b) : regions.any isLoop = true := by
  obtain ⟨kind, header, cond, negated, body, hmem, -⟩ := hdecides
  exact List.any_eq_true.mpr ⟨_, hmem, rfl⟩

theorem Decides.mono (hdecides : Decides regions b) (hsub : ∀ r ∈ regions, r ≠ .cont none → r ∈ regions') :
    Decides regions' b := by
  obtain ⟨kind, header, cond, negated, body, hmem, hrest⟩ := hdecides
  exact ⟨kind, header, cond, negated, body, hsub _ hmem nofun, hrest⟩

theorem nodesOf_append (xs ys : List Region) : nodesOf (xs ++ ys) = nodesOf xs ++ nodesOf ys := by
  induction xs with
  | nil => rfl
  | cons x xs ih => simp [nodesOf, ih]

theorem nodesOf_subset_ofList (items : List Region) : nodesOf items ⊆ nodes (ofList items) := by
  unfold ofList
  split
  · simp [nodesOf]
  · exact List.subset_cons_self _ _

theorem nodesOf_withoutLastContinue {items : List Region} {r : Region} (hr : r ∈ nodesOf items) (hne : r ≠ .cont none) :
    r ∈ nodesOf (withoutLastContinue items) := by
  unfold withoutLastContinue
  split
  · rename_i hlast
    rw [← List.dropLast_append_getLast? _ hlast, nodesOf_append] at hr
    exact (List.mem_append.mp hr).resolve_right fun h => hne (by simpa [nodesOf, nodes] using h)
  · exact hr

end Region

open Region

variable {g : Graph} {p q r : Progress} {latch : Option Nat} {bs cs : List Nat} {regions regions' : List Region}
    {b n : Nat}

/-- The number of blocks that have not been placed and of guarded ranges that have not been opened. -/
def pending (g : Graph) (p : Progress) : Nat :=
  unplaced g p + ((Finset.range g.tries.length).filter fun n => n ∉ p.guarded).card

/-- Between two states the blocks are placed, in the regions. Where ranges begin with one of them, they are opened, or a
loop decides at the block. -/
structure Laid (g : Graph) (latch : Option Nat) (p q : Progress) (bs : List Nat) (regions : List Region) : Prop where
  placed : Placed p q bs
  lt : ∀ b ∈ bs, b < g.size
  guarded : ∀ n, n ∈ p.guarded → n ∈ q.guarded
  opened : ∀ b ∈ bs, latch = some b ∨ Decides regions b ∨
    ∀ n t, g.tries[n]? = some t → t.covered.head? = some b → n ∈ q.guarded

namespace Laid

theorem same (hplaced : q.placed = p.placed) (hguarded : q.guarded = p.guarded) : Laid g latch p q [] regions :=
  ⟨.same hplaced, nofun, fun _ h => hguarded ▸ h, nofun⟩

theorem place (hfresh : b ∉ p.placed) (hlt : b < g.size) (hopened : latch = some b ∨ Decides regions b ∨
    ∀ n t, g.tries[n]? = some t → t.covered.head? = some b → n ∈ p.guarded) : Laid g latch p (p.place b) [b] regions :=
  ⟨.place hfresh, List.forall_mem_singleton.mpr hlt, fun _ h => h, List.forall_mem_singleton.mpr hopened⟩

theorem mono (h : Laid g latch p q bs regions) (hsub : regions ⊆ regions') : Laid g latch p q bs regions' :=
  { h with
    opened := fun b hb =>
      (h.opened b hb).imp_right (Or.imp_left fun hdecides => hdecides.mono fun _ hr _ => hsub hr) }

theorem withoutLastContinue {items : List Region} (h : Laid g latch p q bs (nodesOf items)) :
    Laid g latch p q bs (nodesOf (withoutLastContinue items)) :=
  { h with opened := fun b hb => (h.opened b hb).imp_right (Or.imp_left fun hdecides =>
      hdecides.mono fun _ hr hne => nodesOf_withoutLastContinue hr hne) }

/-- Of the latch that a walk knows of, only that it decides a loop is of interest outside. -/
theorem decided {latch' : Option Nat} (h : Laid g latch' p q bs regions)
    (hlatch : ∀ b, latch' = some b → Decides regions b) :
    Laid g latch p q bs regions :=
  { h with opened := fun b hb => .inr ((h.opened b hb).elim (fun h => .inl (hlatch b h)) id) }

theorem trans (h : Laid g latch p q bs regions) (h' : Laid g latch q r cs regions) :
    Laid g latch p r (bs ++ cs) regions where
  placed := h.placed.trans h'.placed
  lt b hb := (List.mem_append.mp hb).elim (h.lt b) (h'.lt b)
  guarded n hn := h'.guarded n (h.guarded n hn)
  opened b hb := by
    rcases List.mem_append.mp hb with hb | hb
    · exact (h.opened b hb).imp_right (Or.imp_right fun hopened n t ht hhead => h'.guarded n (hopened n t ht hhead))
    · exact h'.opened b hb

theorem append {regions'' : List Region} (h : Laid g latch p q bs regions) (h' : Laid g latch q r cs regions')
    (hsub : regions ⊆ regions'') (hsub' : regions' ⊆ regions'') : Laid g latch p r (bs ++ cs) regions'' :=
  (h.mono hsub).trans (h'.mono hsub')

theorem unguarded_le (h : Laid g latch p q bs regions) :
    ((Finset.range g.tries.length).filter fun n => n ∉ q.guarded).card ≤
      ((Finset.range g.tries.length).filter fun n => n ∉ p.guarded).card := by
  refine Finset.card_le_card fun n hn => ?_
  rw [Finset.mem_filter] at hn ⊢
  exact ⟨hn.1, fun hp => hn.2 (h.guarded n hp)⟩

theorem pending_le (h : Laid g latch p q bs regions) : pending g q ≤ pending g p :=
  Nat.add_le_add h.placed.unplaced_le h.unguarded_le

theorem pending_lt (h : Laid g latch p q bs regions) (hb : b ∈ bs) : pending g q < pending g p :=
  Nat.add_lt_add_of_lt_of_le (h.placed.unplaced_lt (h.lt b hb) (h.placed.fresh b hb) (h.placed.placed b hb))
    h.unguarded_le

end Laid

theorem mem_guard {n m : Nat} : m ∈ (p.guard n).guarded ↔ m ∈ p.guarded ∨ n = m := by
  change (p.guarded.insert n).contains m = true ↔ p.guarded.contains m = true ∨ n = m
  simp [NatSet.contains_insert]

theorem pending_guard (hn : n < g.tries.length) (hfree : n ∉ p.guarded) : pending g (p.guard n) < pending g p := by
  refine Nat.add_lt_add_of_le_of_lt (le_refl _)
    (Finset.card_lt_card ((Finset.ssubset_iff_of_subset fun m hm => ?_).mpr ⟨n, ?_, ?_⟩))
  · rw [Finset.mem_filter] at hm ⊢
    exact ⟨hm.1, fun hp => hm.2 (mem_guard.mpr (.inl hp))⟩
  · exact Finset.mem_filter.mpr ⟨Finset.mem_range.mpr hn, hfree⟩
  · exact fun hm => (Finset.mem_filter.mp hm).2 (mem_guard.mpr (.inr rfl))

theorem pending_pos (hb : b < g.size) (hfree : b ∉ p.placed) : 0 < pending g p :=
  Nat.add_pos_left (unplaced_pos hb hfree) _

theorem pending_le_size (g : Graph) (p : Progress) : pending g p ≤ g.size + g.tries.length := by
  refine Nat.add_le_add ?_ ?_
  · simpa [unplaced] using Finset.card_filter_le (Finset.range g.size) fun b => b ∉ p.placed
  · simpa using Finset.card_filter_le (Finset.range g.tries.length) fun n => n ∉ p.guarded

theorem Laid.guard (h : Laid g latch (p.guard n) q bs regions) : Laid g latch p q bs regions :=
  { h with
    placed := (Placed.same (p := p) (q := p.guard n) rfl).trans h.placed
    guarded := fun m hm => h.guarded m (mem_guard.mpr (.inl hm)) }

theorem Laid.loop {kind : LoopKind} {header : Nat} {cond latch latch' : Option Nat} {negated : Bool}
    {items : List Region} {bs : List Nat}
    (h : Laid g latch' p q bs (nodesOf items)) (hlatch : ∀ b, latch' = some b → kind = .doWhile ∧ cond = some b) :
    Laid g latch p q bs (nodesOf [.loop kind header cond negated (ofList (Region.withoutLastContinue items))]) := by
  refine (h.withoutLastContinue.mono fun r hr => ?_).decided fun b hb => ?_
  · simp [nodesOf, nodes, nodesOf_subset_ofList _ hr]
  · exact ⟨kind, header, cond, negated, _, List.mem_cons_self, .inr (hlatch b hb)⟩

end JavaLift
