import JavaLift.Proofs.Flow.Slicing
import JavaLift.Proofs.Flow.ControlFlow

namespace JavaLift

/-- The range covers the blocks that start in it, in increasing order, and its handlers are blocks. -/
structure TryRegion.Fits (g : Graph) (t : TryRegion) : Prop where
  covers : t.covered ≠ []
  increasing : t.covered.Pairwise (· < ·)
  mem_covered : ∀ b, b ∈ t.covered ↔ b < g.size ∧ t.start ≤ (g.block b).start ∧ (g.block b).start < t.stop
  handlers_lt : ∀ h ∈ t.handlers, h.block < g.size

structure TryRegion.Guards (g : Graph) (t : TryRegion) : Prop extends TryRegion.Fits g t where
  handled : t.handlers ≠ []

namespace Graph

open JavaLift.Digraph

variable {g : Graph} {insns : List Insn} {tries : List TryRange} {length : Nat} {kept : Array Bool} {t : TryRegion}

def code (g : Graph) : List Insn := g.blocks.toList.flatMap (·.insns)

theorem keep_increasing {bs : List Nat} (h : bs.Pairwise (· < ·)) : (keep kept bs).Pairwise (· < ·) := by
  rw [keep, List.pairwise_map]
  exact (h.filter _).imp_of_mem fun ha _ hlt => renumber_lt (List.mem_filter.mp ha).2 hlt

theorem tryRegion_range {starts : List Nat} {r : TryRange} (h : tryRegion starts r = .ok t) :
    t.start = r.start ∧ t.stop = r.stop ∧ t.covered.Pairwise (· < ·) ∧ (t.handlers = [] ↔ r.handlers = []) := by
  obtain ⟨handlers, hhandlers, h⟩ := bind_eq_ok.mp h
  cases h
  refine ⟨rfl, rfl, ?_, ?_⟩
  · have hsub := (List.filter_sublist (p := fun x => r.start ≤ x.1 && x.1 < r.stop) (l := starts.zipIdx)).map Prod.snd
    rw [List.zipIdx_map_snd, ← List.range_eq_range'] at hsub
    exact List.pairwise_lt_range.sublist hsub
  · rw [← List.length_eq_zero_iff, ← List.length_eq_zero_iff, (forall₂_of_mapM hhandlers).length_eq]

section

variable {drafts : List Draft} {regions : List TryRegion} (h : Drafted insns tries length drafts regions)
include h

theorem Drafted.getElem?_starts {b : Nat} (hb : b < (whole drafts regions).size) :
    (startsOf (runs insns tries length))[b]? = some ((whole drafts regions).block b).start := by
  rw [size_whole] at hb
  have hd := List.getElem?_eq_getElem hb
  obtain ⟨run, last, succs, hrun, -, -, hblock⟩ := h.block b _ hd
  rw [startsOf, List.getElem?_map, hrun, block_whole hd, hblock]
  rfl

/-- The guarded range of a table's entry. It covers a block, since one starts where the range does. -/
theorem Drafted.fits (hchecked : ∀ x ∈ bounds insns tries length, x < length ∧ x ∈ insns.map (·.offset))
    (hspan : ∀ r ∈ tries, r.start < r.stop) (ht : t ∈ regions) : t.Fits (whole drafts regions) := by
  obtain ⟨r, hr, hregion⟩ := exists_of_mem_mapM h.regions ht
  obtain ⟨hstart, hstop, hincreasing, -⟩ := tryRegion_range hregion
  have hmem := (tryRegion_spec hregion).1
  have hcovered (b : Nat) : b ∈ t.covered ↔ b < (whole drafts regions).size ∧
      t.start ≤ ((whole drafts regions).block b).start ∧ ((whole drafts regions).block b).start < t.stop := by
    rw [hmem, hstart, hstop]
    constructor
    · rintro ⟨s, hs, hle, hlt⟩
      have hb : b < (whole drafts regions).size := h.starts_length ▸ (List.getElem?_eq_some_iff.mp hs).1
      cases (h.getElem?_starts hb).symm.trans hs
      exact ⟨hb, hle, hlt⟩
    · rintro ⟨hb, hle, hlt⟩
      exact ⟨_, h.getElem?_starts hb, hle, hlt⟩
  refine ⟨?_, hincreasing, hcovered, fun x hx => h.starts_length ▸ (tryRegion_lt hregion).2 x hx⟩
  have hbound : r.start ∈ bounds insns tries length := mem_bounds_of_try hr (by simp [tryBounds])
  obtain ⟨b, hb⟩ := exists_findBlock (mem_leaders_of_bound hbound) (hchecked _ hbound).2
  have hs : (startsOf (runs insns tries length))[b]? = some r.start :=
    getElem?_startsOf.mpr (findBlock_eq_ok.mp hb)
  exact List.ne_nil_of_mem ((hmem b).mpr ⟨r.start, hs, le_rfl, hspan r hr⟩)

theorem Drafted.code_whole : (whole drafts regions).code = insns := by
  have hruns : drafts.map (·.block.insns) = runs insns tries length := by
    refine List.ext_getElem? fun b => ?_
    rw [List.getElem?_map]
    cases hd : drafts[b]? with
    | none => exact (List.getElem?_eq_none (h.size ▸ List.getElem?_eq_none_iff.mp hd)).symm
    | some d =>
        obtain ⟨run, last, succs, hrun, -, -, hblock⟩ := h.block b d hd
        rw [hrun, Option.map_some, hblock]
  rw [code, whole, List.flatMap_def, List.map_map, ← flatten_runs insns tries length, ← hruns]
  rfl

theorem Drafted.insns_ne_nil {b : Nat} (hb : b < (whole drafts regions).size) :
    ((whole drafts regions).block b).insns ≠ [] := by
  rw [size_whole] at hb
  have hd := List.getElem?_eq_getElem hb
  obtain ⟨run, last, succs, hrun, -, -, hblock⟩ := h.block b _ hd
  rw [block_whole hd, hblock]
  exact ne_nil_of_mem_cut (List.mem_of_getElem? hrun)

end

theorem restrict_guards (hfits : ∀ t ∈ g.tries, t.Fits g) (ht : t ∈ (g.restrict kept).tries) :
    t.Guards (g.restrict kept) := by
  obtain ⟨t, htry, rfl, hcovered, hhandlers⟩ := mem_tries_restrict.mp ht
  have hfit := hfits t htry
  refine ⟨⟨hcovered, keep_increasing hfit.increasing, fun b => ?_, fun x hx => ?_⟩, hhandlers⟩
  · constructor
    · intro hb
      obtain ⟨c, hc, hkept, rfl⟩ := mem_keep.mp hb
      obtain ⟨hlt, hstart⟩ := (hfit.mem_covered c).mp hc
      rw [block_restrict hkept hlt]
      exact ⟨renumber_lt_size hkept hlt, hstart⟩
    · rintro ⟨hb, hstart⟩
      obtain ⟨c, hlt, hkept, rfl⟩ := exists_kept hb
      rw [block_restrict hkept hlt] at hstart
      exact (mem_keep_renumber hkept).mpr ((hfit.mem_covered c).mpr ⟨hlt, hstart⟩)
  · obtain ⟨y, hy, hkept, hyx⟩ := mem_handlers_restrictTry.mp ⟨x, hx, rfl⟩
    rw [← hyx]
    exact renumber_lt_size hkept (hfit.handlers_lt y hy)

theorem code_eq (g : Graph) : g.code = (List.range g.size).flatMap fun b => (g.block b).insns := by
  have hblocks : g.blocks.toList = (List.range g.size).map g.block := by
    have h := congrArg (List.map Prod.fst) (zipIdx_blocks g)
    rwa [List.zipIdx_map_fst, List.map_map] at h
  rw [code, hblocks, List.flatMap_map]

theorem code_restrict (g : Graph) (kept : Array Bool) :
    (g.restrict kept).code = (keptBelow kept g.size).flatMap fun b => (g.block b).insns := by
  rw [code, blocks_restrict, List.flatMap_map]

/-- A graph without one of the blocks has fewer instructions. -/
theorem code_restrict_ne {b : Nat} (hb : b < g.size) (hout : has kept b = false) (hne : (g.block b).insns ≠ []) :
    (g.restrict kept).code ≠ g.code := by
  obtain ⟨before, after, hrange⟩ := List.append_of_mem (List.mem_range.mpr hb)
  rw [code_restrict, code_eq, keptBelow, hrange]
  intro h
  have hlength := congrArg List.length h
  have hbefore := ((List.filter_sublist (p := has kept) (l := before)).flatMap fun b => (g.block b).insns).length_le
  have hafter := ((List.filter_sublist (p := has kept) (l := after)).flatMap fun b => (g.block b).insns).length_le
  have hpos := List.length_pos_iff.mpr hne
  simp only [List.filter_append, List.filter_cons, hout, Bool.false_eq_true, if_false, List.flatMap_append,
    List.flatMap_cons, List.length_append] at hlength
  omega

/-- The guarded ranges of a graph cover exactly the blocks that start in them, at least one, for handlers that are blocks.
Each of them has a handler exactly if instructions have been left out or every range of the table has one. -/
theorem ranges_guard_iff (hspan : ∀ r ∈ tries, r.start < r.stop) (h : build insns tries length = .ok g) :
    (∀ t ∈ g.tries, t.Fits g) ∧
      ((∀ t ∈ g.tries, t.Guards g) ↔ g.code ≠ insns ∨ ∀ r ∈ tries, r.handlers ≠ []) := by
  obtain ⟨-, hcheck, drafts, regions, hdrafted, -, rfl⟩ := build_eq_ok h
  have hfits : ∀ t ∈ regions, t.Fits (whole drafts regions) := fun t =>
    hdrafted.fits (checkTargets_eq_ok.mp hcheck) hspan
  unfold pruned
  split
  · refine ⟨hfits, ?_⟩
    rw [hdrafted.code_whole]
    constructor
    · intro hguards
      refine .inr fun r hr hnone => ?_
      obtain ⟨t, ht, hregion⟩ := exists_of_mem_of_mapM hdrafted.regions hr
      exact (hguards t ht).handled ((tryRegion_range hregion).2.2.2.mpr hnone)
    · rintro (hne | hall) t ht
      · exact absurd rfl hne
      · obtain ⟨r, hr, hregion⟩ := exists_of_mem_mapM hdrafted.regions ht
        exact ⟨hfits t ht, fun hnone => hall r hr ((tryRegion_range hregion).2.2.2.mp hnone)⟩
  · rename_i hnot
    have hguards : ∀ t ∈ ((whole drafts regions).restrict (whole drafts regions).keptOf).tries, _ := fun t ht =>
      restrict_guards hfits ht
    refine ⟨fun t ht => (hguards t ht).toFits, fun _ => .inl ?_, fun _ => hguards⟩
    obtain ⟨b, hb, hout⟩ : ∃ b < (whole drafts regions).size, has (whole drafts regions).keptOf b = false := by
      by_contra hall
      simp only [not_exists, not_and, Bool.not_eq_false] at hall
      refine hnot (Array.all_eq_true.mpr fun b hb => ?_)
      have hkept := hall b (by rwa [keptOf, size_reach] at hb)
      simpa [has, hb] using hkept
    have hne := code_restrict_ne hb hout (hdrafted.insns_ne_nil hb)
    rwa [hdrafted.code_whole] at hne

def guardedCall : List Insn :=
  [.of (.invoke .static ⟨"Foo", "g", [], .void⟩) [] none 0, .of .ret [] none 3,
    .of (.moveException none) [] (some (.plain 0)) 4, .of .ret [] none 5]

theorem ranges_guard_guardedCall :
    ∃ g, build guardedCall [⟨0, 3, [⟨none, 4⟩]⟩] 6 = .ok g ∧ ∀ t ∈ g.tries, t.Guards g := by
  have hok : (build guardedCall [⟨0, 3, [⟨none, 4⟩]⟩] 6).toOption.any (fun _ => true) = true := by decide
  obtain ⟨g, hg, -⟩ := exists_ok_of_any hok
  exact ⟨g, hg, (ranges_guard_iff (by decide) hg).2.mpr (.inr (by decide))⟩

/-- A return in a range without handlers. Nothing is left out, so the range stays. -/
theorem not_guards_bareReturn :
    ∃ g, build [.of .ret [] none 0] [⟨0, 1, []⟩] 1 = .ok g ∧ ∃ t ∈ g.tries, ¬ t.Guards g := by
  have hok : ((build [.of .ret [] none 0] [⟨0, 1, []⟩] 1).toOption.any fun g =>
      g.tries.any fun t => t.handlers.isEmpty) = true := by decide +kernel
  obtain ⟨g, hg, hany⟩ := exists_ok_of_any hok
  obtain ⟨t, ht, hnone⟩ := List.any_eq_true.mp hany
  exact ⟨g, hg, t, ht, fun h => h.handled (List.isEmpty_iff.mp hnone)⟩

end Graph

end JavaLift
