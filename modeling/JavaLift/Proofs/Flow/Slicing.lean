import JavaLift.Proofs.Flow.Cutting

namespace JavaLift

theorem Op.isTerminator_of_target {op : Op} {t : Nat} (h : t ∈ op.targets) : op.isTerminator = true := by
  cases op <;> first | rfl | cases h

theorem Op.isTerminator_of_stops {op : Op} (h : ¬ op.fallsThrough = true) : op.isTerminator = true := by
  cases op <;> first | rfl | exact absurd rfl h

/-- A guarded range covers the instruction. -/
def TryRange.Covers (r : TryRange) (i : Insn) : Prop := r.start ≤ i.offset ∧ i.offset < r.stop

namespace Graph

open JavaLift.Digraph

variable {insns : List Insn} {tries : List TryRange} {length b c k n t : Nat} {i : Insn} {run : List Insn}

/-- Instructions in the order of their offsets, which are within the code. Several may be at one offset, and a jump,
return or throw is the last of them. -/
structure InOrder (insns : List Insn) (length : Nat) : Prop where
  sorted : insns.Pairwise fun i j => i.offset ≤ j.offset
  apart : insns.Pairwise fun i j => i.op.isTerminator = true → i.offset ≠ j.offset
  below : ∀ i ∈ insns, i.offset < length

/-- Control goes from the instruction at index `n` to the one at index `m` in the normal way. -/
inductive Leads (insns : List Insn) (n m : Nat) : Prop where
  | next {i : Insn} (here : insns[n]? = some i) (falls : i.op.fallsThrough = true) (step : m = n + 1)
      (inside : m < insns.length)
  | jump {i : Insn} {t : Nat} (here : insns[n]? = some i) (target : t ∈ i.op.targets) (found : firstAt insns t = some m)

/-- An exception leads from the instruction at index `n` to the handler at index `m`. -/
def Throws (insns : List Insn) (tries : List TryRange) (n m : Nat) : Prop :=
  ∃ i, insns[n]? = some i ∧ ∃ r ∈ tries, r.Covers i ∧ ∃ h ∈ r.handlers, firstAt insns h.target = some m

/-- The blocks of a graph are slices of the instructions, where that of block `b` begins at index `first b`. Only the
last instruction of a block may be a terminator, only the first one the target of a jump, a handler or the bound of a
guarded range, and the edges are those of the instructions. -/
structure Sliced (insns : List Insn) (tries : List TryRange) (length : Nat) (g : Graph) (first : Nat → Nat) :
    Prop where
  order : ∀ b c, b < c → c < g.size → first b + (g.block b).insns.length ≤ first c
  slice : ∀ b < g.size, (g.block b).insns ≠ [] ∧
    (g.block b).insns = (insns.drop (first b)).take (g.block b).insns.length
  start : ∀ b < g.size, (g.block b).insns.head?.map (·.offset) = some (g.block b).start
  terminator : ∀ b < g.size, ∀ (k : Nat) (i : Insn), (g.block b).insns[k]? = some i → i.op.isTerminator = true →
    k + 1 = (g.block b).insns.length
  boundary : ∀ b < g.size, ∀ k, k + 1 < (g.block b).insns.length → ∀ t ∈ bounds insns tries length,
    firstAt insns t ≠ some (first b + (k + 1))
  succs : ∀ b < g.size, ∀ c, c ∈ g.succs b ↔
    c < g.size ∧ Leads insns (first b + ((g.block b).insns.length - 1)) (first c)
  leads : ∀ b < g.size, ∀ n, Leads insns (first b + ((g.block b).insns.length - 1)) n → ∃ c < g.size, first c = n
  covers : ∀ b < g.size, ∀ r ∈ tries, (∃ i ∈ (g.block b).insns, r.Covers i) → ∀ i ∈ (g.block b).insns, r.Covers i
  handlers : ∀ b < g.size, ∀ c, c ∈ g.handlers b ↔ c < g.size ∧ ∃ r ∈ tries, (∀ i ∈ (g.block b).insns, r.Covers i) ∧
    ∃ h ∈ r.handlers, firstAt insns h.target = some (first c)
  catches : ∀ b < g.size, ∀ r ∈ tries, (∀ i ∈ (g.block b).insns, r.Covers i) → ∀ h ∈ r.handlers,
    ∃ c < g.size, firstAt insns h.target = some (first c)

section

variable {starts succs : List Nat} {last : Insn} {cause : Option Inconsistency}

theorem mem_fallThrough? : c ∈ (fallThrough? starts b).toList ↔ c = b + 1 ∧ b + 1 < starts.length := by
  rw [fallThrough?]
  split
  · rename_i h
    simp [h]
  · rename_i h
    simp [h]

theorem fallThrough?_isNone : (fallThrough? starts b).isNone = true ↔ ¬ b + 1 < starts.length := by
  rw [fallThrough?]
  split <;> simp_all

/-- The successors are the block after this one, if control falls through, and those of the targets. Something is wrong
if control falls through and there is no block after this one. -/
theorem normalEdges_spec (h : normalEdges starts b last = .ok (succs, cause)) :
    (∀ c, c ∈ succs ↔ (last.op.fallsThrough = true ∧ c = b + 1 ∧ b + 1 < starts.length) ∨
      ∃ t ∈ last.op.targets, findBlock starts t = .ok c) ∧
    (cause = none ↔ (last.op.fallsThrough = true → b + 1 < starts.length)) := by
  rw [normalEdges_eq] at h
  obtain ⟨found, hfound, h⟩ := bind_eq_ok.mp h
  cases h
  have hmem (c : Nat) : c ∈ found ↔ ∃ t ∈ last.op.targets, findBlock starts t = .ok c := by
    constructor
    · intro hc
      obtain ⟨t, ht, hfoundAt⟩ := exists_of_mem_mapM hfound hc
      exact ⟨t, Op.mem_jumps.mp ht, hfoundAt⟩
    · rintro ⟨t, ht, hfoundAt⟩
      obtain ⟨c', hc', hfoundAt'⟩ := exists_of_mem_of_mapM hfound (Op.mem_jumps.mpr ht)
      cases hfoundAt.symm.trans hfoundAt'
      exact hc'
  constructor
  · intro c
    rw [List.mem_append, hmem]
    cases last.op.fallsThrough
    · simp
    · rw [if_pos rfl, mem_fallThrough?]
      simp
  · cases last.op.fallsThrough
    · simp
    · rw [Bool.true_and, ite_eq_right_iff, fallThrough?_isNone]
      simp

theorem exists_edges (b : Nat) (h : ∀ t ∈ last.op.targets, ∃ c, findBlock starts t = .ok c) :
    ∃ edges, normalEdges starts b last = .ok edges := by
  obtain ⟨found, hfound⟩ := exists_mapM fun t ht => h t (Op.mem_jumps.mp ht)
  rw [normalEdges_eq]
  exact ⟨_, bind_eq_ok.mpr ⟨found, hfound, rfl⟩⟩

theorem tryRegion_spec {r : TryRange} {region : TryRegion} (h : tryRegion starts r = .ok region) :
    (∀ b, b ∈ region.covered ↔ ∃ s, starts[b]? = some s ∧ r.start ≤ s ∧ s < r.stop) ∧
      ∀ c, (∃ x ∈ region.handlers, x.block = c) ↔ ∃ x ∈ r.handlers, findBlock starts x.target = .ok c := by
  obtain ⟨handlers, hhandlers, h⟩ := bind_eq_ok.mp h
  cases h
  refine ⟨fun b => ?_, fun c => ?_⟩
  · simp [List.mem_zipIdx_iff_getElem?]
  · constructor
    · rintro ⟨x, hx, rfl⟩
      obtain ⟨y, hy, hyx⟩ := exists_of_mem_mapM hhandlers hx
      obtain ⟨c, hc, hpure⟩ := bind_eq_ok.mp hyx
      cases hpure
      exact ⟨y, hy, hc⟩
    · rintro ⟨y, hy, hc⟩
      obtain ⟨x, hx, hyx⟩ := exists_of_mem_of_mapM hhandlers hy
      obtain ⟨c', hc', hpure⟩ := bind_eq_ok.mp hyx
      cases hpure
      cases hc.symm.trans hc'
      exact ⟨_, hx, rfl⟩

theorem exists_tryRegion {r : TryRange} (h : ∀ x ∈ r.handlers, ∃ c, findBlock starts x.target = .ok c) :
    ∃ region, tryRegion starts r = .ok region := by
  obtain ⟨handlers, hhandlers⟩ : ∃ handlers, r.handlers.mapM (fun x => do
      return HandlerBlock.mk x.exception (← findBlock starts x.target)) = .ok handlers :=
    exists_mapM fun x hx => by
      obtain ⟨c, hc⟩ := h x hx
      exact ⟨_, bind_eq_ok.mpr ⟨c, hc, rfl⟩⟩
  exact ⟨_, bind_eq_ok.mpr ⟨handlers, hhandlers, rfl⟩⟩

end

theorem mem_leaders_of_bound (h : t ∈ bounds insns tries length) : t ∈ leaders insns tries length := by
  simp only [bounds, leaders, List.mem_append] at h ⊢
  tauto

theorem mem_bounds_of_target (hi : insns[n]? = some i) (ht : t ∈ i.op.targets) : t ∈ bounds insns tries length :=
  List.mem_append_left _ (List.mem_flatMap.mpr ⟨i, List.mem_of_getElem? hi, ht⟩)

theorem mem_bounds_of_try {r : TryRange} (hr : r ∈ tries) (ht : t ∈ tryBounds length r) :
    t ∈ bounds insns tries length := List.mem_append_right _ (List.mem_flatMap.mpr ⟨r, hr, ht⟩)

theorem mem_bounds_of_handler {r : TryRange} {h : Handler} (hr : r ∈ tries) (hh : h ∈ r.handlers) :
    h.target ∈ bounds insns tries length :=
  mem_bounds_of_try hr (List.mem_append_right _ (List.mem_map_of_mem hh))

theorem mem_afterTerminators {j : Insn} (hi : insns[k]? = some i) (hj : insns[k + 1]? = some j)
    (hterm : i.op.isTerminator = true) : j.offset ∈ afterTerminators insns := by
  induction insns generalizing k with
  | nil => cases hi
  | cons x rest ih =>
      cases rest with
      | nil => cases hj
      | cons y rest =>
          rw [afterTerminators, List.mem_append]
          cases k with
          | zero =>
              cases hi
              cases hj
              exact .inl (by simp [hterm])
          | succ k => exact .inr (ih hi hj)

section

variable (hin : InOrder insns length)
include hin

theorem InOrder.le {m : Nat} {j : Insn} (hm : insns[m]? = some j) (hi : insns[n]? = some i) (h : m ≤ n) :
    j.offset ≤ i.offset := by
  rcases Nat.lt_or_eq_of_le h with hlt | rfl
  · obtain ⟨hm', rfl⟩ := List.getElem?_eq_some_iff.mp hm
    obtain ⟨hn', rfl⟩ := List.getElem?_eq_some_iff.mp hi
    exact List.pairwise_iff_getElem.mp hin.sorted m n hm' hn' hlt
  · cases hm.symm.trans hi
    exact le_rfl

/-- The instruction after a terminator is the first one at its offset. -/
theorem InOrder.firstAt_succ {j : Insn} (hi : insns[n]? = some i) (hj : insns[n + 1]? = some j)
    (hterm : i.op.isTerminator = true) : firstAt insns j.offset = some (n + 1) := by
  refine firstAt_eq_some.mpr ⟨j, hj, rfl, fun m l hm hl => ?_⟩
  have hne : i.offset ≠ j.offset := by
    obtain ⟨hn, rfl⟩ := List.getElem?_eq_some_iff.mp hi
    obtain ⟨hn', rfl⟩ := List.getElem?_eq_some_iff.mp hj
    exact List.pairwise_iff_getElem.mp hin.apart n (n + 1) hn hn' (Nat.lt_succ_self n) hterm
  have hle := hin.le hl hi (Nat.le_of_lt_succ hm)
  have hle' := hin.le hi hj (Nat.le_succ n)
  omega

variable (hrun : (runs insns tries length)[b]? = some run)
include hrun

theorem InOrder.terminator (hi : run[k]? = some i) (hterm : i.op.isTerminator = true) : k + 1 = run.length := by
  have hk := (List.getElem?_eq_some_iff.mp hi).1
  by_contra hne
  have hk' : k + 1 < run.length := by omega
  have hj := List.getElem?_eq_getElem hk'
  rw [← getElem?_block hrun hk] at hi
  rw [← getElem?_block hrun hk', ← Nat.add_assoc] at hj
  refine firstAt_ne hrun hk' ?_ (hin.firstAt_succ hi hj hterm)
  exact List.mem_append_left _ (List.mem_append_right _ (mem_afterTerminators hi hj hterm))

/-- No block starts between the start of a block and one of its instructions. -/
theorem InOrder.le_start {x : Insn} (hx : run.head? = some x) (hi : i ∈ run) (hlead : t ∈ leaders insns tries length)
    (hmem : t ∈ insns.map (·.offset)) (hle : t ≤ i.offset) : t ≤ x.offset := by
  obtain ⟨m, hfirst⟩ := exists_firstAt hmem
  obtain ⟨j, hj, rfl, hbefore⟩ := firstAt_eq_some.mp hfirst
  obtain ⟨k, hk⟩ := List.mem_iff_getElem?.mp hi
  have hlen := (List.getElem?_eq_some_iff.mp hk).1
  rw [← getElem?_block hrun hlen] at hk
  rw [List.head?_eq_getElem?, ← getElem?_block hrun (length_run_pos hrun), Nat.add_zero] at hx
  by_contra hlt
  have hafter : blockStart insns tries length b < m := by
    by_contra hge
    exact hlt (hin.le hj hx (Nat.le_of_not_lt hge))
  have hbefore' : m ≤ blockStart insns tries length b + k := by
    by_contra hgt
    exact hbefore _ i (Nat.lt_of_not_le hgt) hk (Nat.le_antisymm (hin.le hk hj (Nat.le_of_not_le hgt)) hle)
  obtain ⟨d, rfl⟩ := Nat.exists_eq_add_of_lt hafter
  exact firstAt_ne hrun (k := d) (by omega) hlead hfirst

/-- A guarded range covers an instruction of a block if it covers the start of the block. -/
theorem InOrder.covers_iff (hchecked : ∀ t ∈ bounds insns tries length, t < length ∧ t ∈ insns.map (·.offset))
    {x : Insn} (hx : run.head? = some x) (hi : i ∈ run) {r : TryRange} (hr : r ∈ tries) : r.Covers i ↔ r.Covers x := by
  have hmem {j : Insn} (hj : j ∈ run) : j ∈ insns := by
    rw [← flatten_runs insns tries length]
    exact List.mem_flatten_of_mem (List.mem_of_getElem? hrun) hj
  have hle : x.offset ≤ i.offset := by
    obtain ⟨k, hk⟩ := List.mem_iff_getElem?.mp hi
    have hlen := (List.getElem?_eq_some_iff.mp hk).1
    rw [← getElem?_block hrun hlen] at hk
    rw [List.head?_eq_getElem?, ← getElem?_block hrun (length_run_pos hrun)] at hx
    exact hin.le hx hk (by omega)
  have hstart {t : Nat} (ht : t ∈ tryBounds length r) (hti : t ≤ i.offset) : t ≤ x.offset := by
    have hbound : t ∈ bounds insns tries length := mem_bounds_of_try hr ht
    exact hin.le_start hrun hx hi (mem_leaders_of_bound hbound) (hchecked t hbound).2 hti
  constructor
  · rintro ⟨hlow, hhigh⟩
    exact ⟨hstart (by simp [tryBounds]) hlow, hle.trans_lt hhigh⟩
  · rintro ⟨hlow, hhigh⟩
    refine ⟨hlow.trans hle, ?_⟩
    by_contra hge
    have hbelow := hin.below i (hmem hi)
    have hstop : r.stop ≤ x.offset := hstart (by simp [tryBounds]; omega) (Nat.le_of_not_lt hge)
    omega

end

theorem getElem?_last {last : Insn} (hrun : (runs insns tries length)[b]? = some run)
    (hlast : run.getLast? = some last) :
    insns[blockStart insns tries length b + (run.length - 1)]? = some last := by
  have hpos := length_run_pos hrun
  rw [getElem?_block hrun (by omega), ← hlast, List.getLast?_eq_getElem?]

/-- The last block ends with the last instruction. -/
theorem getLast?_of_end {last : Insn} (hrun : (runs insns tries length)[b]? = some run)
    (hlast : run.getLast? = some last) (hend : ¬ b + 1 < (runs insns tries length).length) :
    insns.getLast? = some last := by
  have hget := getElem?_last hrun hlast
  have hlt := (List.getElem?_eq_some_iff.mp hget).1
  have hpos := length_run_pos hrun
  rw [succ_lt_iff hrun] at hend
  rwa [List.getLast?_eq_getElem?, show insns.length - 1 = blockStart insns tries length b + (run.length - 1) by omega]

theorem exists_draft (hchecked : ∀ t ∈ bounds insns tries length, t < length ∧ t ∈ insns.map (·.offset)) :
    ∃ drafts regions, draft insns tries length = .ok (drafts, regions) := by
  have hfound {t : Nat} (ht : t ∈ bounds insns tries length) :
      ∃ c, findBlock (startsOf (runs insns tries length)) t = .ok c :=
    exists_findBlock (mem_leaders_of_bound ht) (hchecked t ht).2
  obtain ⟨edges, hedges⟩ : ∃ edges,
      (runs insns tries length).zipIdx.mapM (edgesOf (startsOf (runs insns tries length))) = .ok edges := by
    apply exists_mapM
    rintro ⟨run, b⟩ hrun
    rw [List.mem_zipIdx_iff_getElem?] at hrun
    unfold edgesOf
    cases hlast : run.getLast? with
    | none => exact ⟨_, rfl⟩
    | some last => exact exists_edges b fun t ht => hfound (mem_bounds_of_target (getElem?_last hrun hlast) ht)
  obtain ⟨regions, hregions⟩ : ∃ regions,
      tries.mapM (tryRegion (startsOf (runs insns tries length))) = .ok regions :=
    exists_mapM fun r hr => exists_tryRegion fun h hh => hfound (mem_bounds_of_handler hr hh)
  exact ⟨_, _, bind_eq_ok.mpr ⟨edges, hedges, bind_eq_ok.mpr ⟨regions, hregions, rfl⟩⟩⟩

section

variable {drafts : List Draft} {regions : List TryRegion} (hdraft : draft insns tries length = .ok (drafts, regions))
include hdraft

theorem size_whole_eq : (whole drafts regions).size = (runs insns tries length).length := by
  rw [size_whole, length_of_draft hdraft]

theorem exists_whole_block (hb : b < (whole drafts regions).size) : ∃ d run last succs, drafts[b]? = some d ∧
    (runs insns tries length)[b]? = some run ∧ run.getLast? = some last ∧
    normalEdges (startsOf (runs insns tries length)) b last = .ok (succs, d.cause) ∧
    (whole drafts regions).block b =
      ⟨run.head?.elim 0 fun i => i.offset, run, distinct succs, handlersOf regions b⟩ := by
  rw [size_whole] at hb
  have hd := List.getElem?_eq_getElem hb
  obtain ⟨run, last, succs, hrun, hlast, hedges, hblock⟩ := exists_normalEdges hdraft hd
  exact ⟨_, run, last, succs, hd, hrun, hlast, hedges, (block_whole hd).trans hblock⟩

theorem mem_handlers_whole (hb : b < (whole drafts regions).size) : c ∈ (whole drafts regions).handlers b ↔
    ∃ r ∈ tries, (∃ s, (startsOf (runs insns tries length))[b]? = some s ∧ r.start ≤ s ∧ s < r.stop) ∧
      ∃ h ∈ r.handlers, findBlock (startsOf (runs insns tries length)) h.target = .ok c := by
  obtain ⟨d, run, last, succs, -, -, -, -, hblock⟩ := exists_whole_block hdraft hb
  obtain ⟨_, -, hregions, -⟩ := draft_eq_ok hdraft
  rw [Graph.handlers, hblock, mem_handlersOf]
  constructor
  · rintro ⟨region, hregion, hcovered, hx⟩
    obtain ⟨r, hr, heq⟩ := exists_of_mem_mapM hregions hregion
    exact ⟨r, hr, ((tryRegion_spec heq).1 b).mp hcovered, ((tryRegion_spec heq).2 c).mp hx⟩
  · rintro ⟨r, hr, hcovered, hx⟩
    obtain ⟨region, hregion, heq⟩ := exists_of_mem_of_mapM hregions hr
    exact ⟨region, hregion, ((tryRegion_spec heq).1 b).mpr hcovered, ((tryRegion_spec heq).2 c).mpr hx⟩

theorem mem_succs_whole (hb : b < (whole drafts regions).size) : c ∈ (whole drafts regions).succs b ↔
    c < (whole drafts regions).size ∧
      Leads insns (blockStart insns tries length b + (((whole drafts regions).block b).insns.length - 1))
        (blockStart insns tries length c) := by
  have hsize := size_whole_eq hdraft
  obtain ⟨d, run, last, succs, -, hrun, hlast, hedges, hblock⟩ := exists_whole_block hdraft hb
  have hget := getElem?_last hrun hlast
  have hpos := length_run_pos hrun
  have hnext := blockStart_succ hrun
  have hstarts : (startsOf (runs insns tries length)).length = (runs insns tries length).length := by simp [startsOf]
  simp only [Graph.succs, hblock]
  rw [mem_distinct, (normalEdges_spec hedges).1, hsize, hstarts]
  constructor
  · rintro (⟨hfalls, rfl, hlt⟩ | ⟨t, ht, hfound⟩)
    · have hinside := (succ_lt_iff hrun).mp hlt
      rw [← hnext] at hinside
      exact ⟨hlt, .next hget hfalls (by rw [hnext]; omega) hinside⟩
    · obtain ⟨hc, hfirst⟩ := findBlock_eq_ok.mp hfound
      exact ⟨hc, .jump hget ht hfirst⟩
  · rintro ⟨hc, hleads⟩
    cases hleads with
    | @next i here falls step inside =>
        cases hget.symm.trans here
        have hb' := (List.getElem?_eq_some_iff.mp hrun).1
        obtain rfl : c = b + 1 := blockStart_inj hc.le hb' (by rw [step, hnext]; omega)
        exact .inl ⟨falls, rfl, hc⟩
    | @jump i t here target found =>
        cases hget.symm.trans here
        exact .inr ⟨t, target, findBlock_eq_ok.mpr ⟨hc, found⟩⟩

theorem slice_whole (hb : b < (whole drafts regions).size) : ((whole drafts regions).block b).insns ≠ [] ∧
    ((whole drafts regions).block b).insns =
      (insns.drop (blockStart insns tries length b)).take ((whole drafts regions).block b).insns.length := by
  obtain ⟨d, run, last, succs, -, hrun, -, -, hblock⟩ := exists_whole_block hdraft hb
  rw [hblock]
  refine ⟨List.length_pos_iff.mp (length_run_pos hrun), List.ext_getElem? fun k => ?_⟩
  by_cases hk : k < run.length
  · rw [List.getElem?_take_of_lt hk, List.getElem?_drop, getElem?_block hrun hk]
  · rw [List.getElem?_eq_none (Nat.le_of_not_lt hk), List.getElem?_eq_none]
    exact (List.length_take_le _ _).trans (Nat.le_of_not_lt hk)

theorem exists_of_leads_whole (hb : b < (whole drafts regions).size) {n : Nat}
    (h : Leads insns (blockStart insns tries length b + (((whole drafts regions).block b).insns.length - 1)) n) :
    ∃ c < (whole drafts regions).size, blockStart insns tries length c = n := by
  obtain ⟨d, run, last, succs, -, hrun, hlast, -, hblock⟩ := exists_whole_block hdraft hb
  have hpos := length_run_pos hrun
  simp only [hblock] at h
  rw [size_whole_eq hdraft]
  cases h with
  | @next i here falls step inside =>
      refine ⟨b + 1, (succ_lt_iff hrun).mpr (by omega), ?_⟩
      rw [step, blockStart_succ hrun]
      omega
  | @jump i t here target found =>
      exact exists_blockStart (mem_leaders_of_bound (mem_bounds_of_target here target)) found

section

variable (hchecked : ∀ t ∈ bounds insns tries length, t < length ∧ t ∈ insns.map (·.offset))
include hchecked

/-- All instructions of a block are covered by the same ranges. -/
theorem covers_iff_whole (hin : InOrder insns length) (hb : b < (whole drafts regions).size) {r : TryRange}
    (hr : r ∈ tries) {i j : Insn} (hi : i ∈ ((whole drafts regions).block b).insns)
    (hj : j ∈ ((whole drafts regions).block b).insns) : r.Covers i ↔ r.Covers j := by
  obtain ⟨d, run, last, succs, -, hrun, -, -, hblock⟩ := exists_whole_block hdraft hb
  obtain ⟨x, -, hx, -⟩ := exists_front hrun
  rw [hblock] at hi hj
  rw [hin.covers_iff hrun hchecked hx hi hr, hin.covers_iff hrun hchecked hx hj hr]

theorem exists_handler_whole {r : TryRange} (hr : r ∈ tries) {h : Handler} (hh : h ∈ r.handlers) :
    ∃ c < (whole drafts regions).size, firstAt insns h.target = some (blockStart insns tries length c) := by
  have hbound : h.target ∈ bounds insns tries length := mem_bounds_of_handler hr hh
  obtain ⟨c, hc⟩ := exists_findBlock (mem_leaders_of_bound hbound) (hchecked _ hbound).2
  rw [size_whole_eq hdraft]
  exact ⟨c, findBlock_eq_ok.mp hc⟩

/-- The handlers of a block are those of the ranges that cover all of it. -/
theorem mem_handlers_whole_iff (hin : InOrder insns length) (hb : b < (whole drafts regions).size) :
    c ∈ (whole drafts regions).handlers b ↔ c < (whole drafts regions).size ∧
      ∃ r ∈ tries, (∀ i ∈ ((whole drafts regions).block b).insns, r.Covers i) ∧
        ∃ h ∈ r.handlers, firstAt insns h.target = some (blockStart insns tries length c) := by
  obtain ⟨d, run, last, succs, -, hrun, -, -, hblock⟩ := exists_whole_block hdraft hb
  obtain ⟨x, -, hx, -, hfirst⟩ := exists_front hrun
  have hmem : x ∈ ((whole drafts regions).block b).insns := by
    rw [hblock]
    exact List.mem_of_head? hx
  have hstart : (startsOf (runs insns tries length))[b]? = some x.offset :=
    getElem?_startsOf.mpr ⟨(List.getElem?_eq_some_iff.mp hrun).1, hfirst⟩
  rw [mem_handlers_whole hdraft hb, hstart, size_whole_eq hdraft]
  constructor
  · rintro ⟨r, hr, ⟨_, hs, hcovered⟩, h, hh, hfound⟩
    cases hs
    obtain ⟨hc, htarget⟩ := findBlock_eq_ok.mp hfound
    exact ⟨hc, r, hr, fun i hi => (covers_iff_whole hdraft hchecked hin hb hr hi hmem).mpr hcovered, h, hh, htarget⟩
  · rintro ⟨hc, r, hr, hcovered, h, hh, htarget⟩
    exact ⟨r, hr, ⟨_, rfl, hcovered x hmem⟩, h, hh, findBlock_eq_ok.mpr ⟨hc, htarget⟩⟩

end

theorem sliced_whole (hin : InOrder insns length)
    (hchecked : ∀ t ∈ bounds insns tries length, t < length ∧ t ∈ insns.map (·.offset)) :
    Sliced insns tries length (whole drafts regions) (blockStart insns tries length) := by
  constructor
  case order =>
    intro b c hbc hc
    obtain ⟨d, run, last, succs, -, hrun, -, -, hblock⟩ := exists_whole_block hdraft (hbc.trans hc)
    rw [hblock, ← blockStart_succ hrun]
    exact runStart_mono _ hbc
  case slice => exact fun b hb => slice_whole hdraft hb
  case start =>
    intro b hb
    obtain ⟨d, run, last, succs, -, hrun, -, -, hblock⟩ := exists_whole_block hdraft hb
    obtain ⟨x, -, hx, -⟩ := exists_front hrun
    rw [hblock]
    simp [hx]
  case terminator =>
    intro b hb k i hi hterm
    obtain ⟨d, run, last, succs, -, hrun, -, -, hblock⟩ := exists_whole_block hdraft hb
    rw [hblock] at hi ⊢
    exact hin.terminator hrun hi hterm
  case boundary =>
    intro b hb k hk t ht
    obtain ⟨d, run, last, succs, -, hrun, -, -, hblock⟩ := exists_whole_block hdraft hb
    rw [hblock] at hk
    exact firstAt_ne hrun hk (mem_leaders_of_bound ht)
  case succs => exact fun b hb c => mem_succs_whole hdraft hb
  case leads => exact fun b hb n => exists_of_leads_whole hdraft hb
  case covers =>
    exact fun b hb r hr ⟨i, hi, hcovered⟩ j hj => (covers_iff_whole hdraft hchecked hin hb hr hj hi).mpr hcovered
  case handlers => exact fun b hb c => mem_handlers_whole_iff hdraft hchecked hin hb
  case catches => exact fun b hb r hr _ h hh => exists_handler_whole hdraft hchecked hr hh

end

end Graph

end JavaLift
