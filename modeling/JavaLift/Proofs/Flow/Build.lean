import JavaLift.Flow.Build
import JavaLift.Proofs.Flow.Reach
import JavaLift.Proofs.Flow.Walk
import JavaLift.Proofs.Except

namespace JavaLift

namespace Graph

open JavaLift.Digraph

variable {g : Graph} {kept : Array Bool} {a b : Nat}

def keptBelow (kept : Array Bool) (n : Nat) : List Nat := (List.range n).filter (has kept)

theorem range_eq_append {n : Nat} (hlt : b < n) :
    List.range n = List.range b ++ b :: List.range' (b + 1) (n - (b + 1)) := by
  obtain ⟨m, rfl⟩ := Nat.exists_eq_add_of_le hlt
  have hsplit := @List.range'_append_1 0 b (m + 1)
  rw [Nat.zero_add, List.range'_succ] at hsplit
  rw [List.range_eq_range', List.range_eq_range', Nat.add_sub_cancel_left, Nat.succ_eq_add_one, Nat.add_assoc,
    Nat.add_comm 1 m, ← hsplit]

theorem keptBelow_get (hb : has kept b = true) {n : Nat} (hlt : b < n) :
    (keptBelow kept n)[renumber kept b]? = some b := by
  rw [keptBelow, range_eq_append hlt, List.filter_append, List.filter_cons_of_pos hb, renumber]
  exact List.getElem?_append_right (Nat.le_refl _) |>.trans (by simp)

theorem renumber_lt (hb : has kept b = true) {n : Nat} (hlt : b < n) : renumber kept b < (keptBelow kept n).length :=
  (List.getElem?_eq_some_iff.mp (keptBelow_get hb hlt)).1

theorem lt_of_renumber_lt (hb : has kept b = true) (h : renumber kept a < renumber kept b) : a < b := by
  by_contra hle
  rcases Nat.lt_or_eq_of_le (Nat.le_of_not_lt hle) with hlt | rfl
  · exact absurd h (Nat.not_lt_of_lt (renumber_lt hb hlt))
  · exact absurd h (Nat.lt_irrefl _)

theorem renumber_inj (ha : has kept a = true) (hb : has kept b = true) (h : renumber kept a = renumber kept b) :
    a = b := by
  have hget := keptBelow_get ha (Nat.lt_succ_of_le (Nat.le_max_left a b))
  rw [h, keptBelow_get hb (Nat.lt_succ_of_le (Nat.le_max_right a b))] at hget
  exact (Option.some.inj hget).symm

/-- Every number below that of the kept blocks is that of a kept block. -/
theorem exists_renumber {n k : Nat} (hk : k < (keptBelow kept n).length) :
    ∃ b < n, has kept b = true ∧ renumber kept b = k := by
  have hmem := List.getElem_mem hk
  obtain ⟨hlt, hhas⟩ := List.mem_filter.mp hmem
  rw [List.mem_range] at hlt
  refine ⟨_, hlt, hhas, ?_⟩
  have hnodup : (keptBelow kept n).Nodup := List.nodup_range.filter _
  have hget := keptBelow_get hhas hlt
  rw [← List.getElem?_eq_getElem hk] at hget
  exact ((List.getElem?_inj hk hnodup).mp hget.symm).symm

def keep (kept : Array Bool) (bs : List Nat) : List Nat := (bs.filter (has kept)).map (renumber kept)

theorem mem_keep {bs : List Nat} {n : Nat} : n ∈ keep kept bs ↔ ∃ c ∈ bs, has kept c = true ∧ renumber kept c = n := by
  simp [keep, and_assoc]

theorem mem_keep_renumber {bs : List Nat} (hb : has kept b = true) : renumber kept b ∈ keep kept bs ↔ b ∈ bs := by
  rw [mem_keep]
  constructor
  · rintro ⟨c, hc, hhas, he⟩
    exact renumber_inj hhas hb he ▸ hc
  · exact fun h => ⟨b, h, hb, rfl⟩

theorem zipIdx_blocks (g : Graph) : g.blocks.toList.zipIdx = (List.range g.size).map fun b => (g.block b, b) := by
  refine List.ext_getElem (by simp [size]) fun n hn _ => ?_
  have hlt : n < g.blocks.size := by simpa using hn
  simp [block, hlt]

theorem blocks_restrict (g : Graph) (kept : Array Bool) : (g.restrict kept).blocks.toList =
    (keptBelow kept g.size).map fun b =>
      { g.block b with succs := keep kept (g.succs b), handlers := keep kept (g.handlers b) } := by
  simp only [restrict, zipIdx_blocks, List.filter_map, List.map_map]
  rfl

theorem size_restrict (g : Graph) (kept : Array Bool) : (g.restrict kept).size = (keptBelow kept g.size).length := by
  rw [size, ← Array.length_toList, blocks_restrict, List.length_map]

theorem renumber_lt_size (hb : has kept b = true) (hlt : b < g.size) :
    renumber kept b < (g.restrict kept).size := by
  rw [size_restrict]
  exact renumber_lt hb hlt

/-- Every number of the smaller graph is that of a kept block. -/
theorem exists_kept {k : Nat} (hk : k < (g.restrict kept).size) :
    ∃ b < g.size, has kept b = true ∧ renumber kept b = k := by
  rw [size_restrict] at hk
  exact exists_renumber hk

theorem block_restrict (hb : has kept b = true) (hlt : b < g.size) : (g.restrict kept).block (renumber kept b) =
    { g.block b with succs := keep kept (g.succs b), handlers := keep kept (g.handlers b) } := by
  rw [block, ← Array.getElem?_toList, blocks_restrict, List.getElem?_map, keptBelow_get hb hlt]
  rfl

theorem succs_restrict (hb : has kept b = true) (hlt : b < g.size) :
    (g.restrict kept).succs (renumber kept b) = keep kept (g.succs b) := by rw [succs, block_restrict hb hlt]

theorem handlers_restrict (hb : has kept b = true) (hlt : b < g.size) :
    (g.restrict kept).handlers (renumber kept b) = keep kept (g.handlers b) := by rw [handlers, block_restrict hb hlt]

def restrictTry (kept : Array Bool) (t : TryRegion) : TryRegion :=
  { t with
    covered := keep kept t.covered
    handlers := (t.handlers.filter fun h => has kept h.block).map fun h => { h with block := renumber kept h.block } }

theorem mem_tries_restrict {t' : TryRegion} : t' ∈ (g.restrict kept).tries ↔
    ∃ t ∈ g.tries, restrictTry kept t = t' ∧ t'.covered ≠ [] ∧ t'.handlers ≠ [] := by
  have htries : (g.restrict kept).tries =
      (g.tries.map (restrictTry kept)).filter fun t => !t.covered.isEmpty && !t.handlers.isEmpty := rfl
  rw [htries, List.mem_filter, List.mem_map]
  constructor
  · rintro ⟨⟨t, ht, rfl⟩, hne⟩
    exact ⟨t, ht, rfl, by simpa using hne⟩
  · rintro ⟨t, ht, rfl, hne⟩
    exact ⟨⟨t, ht, rfl⟩, by simpa using hne⟩

theorem mem_handlers_restrictTry {t : TryRegion} {n : Nat} :
    (∃ x ∈ (restrictTry kept t).handlers, x.block = n) ↔
      ∃ x ∈ t.handlers, has kept x.block = true ∧ renumber kept x.block = n := by
  constructor
  · rintro ⟨x, hx, rfl⟩
    obtain ⟨y, hy, rfl⟩ := List.mem_map.mp hx
    exact ⟨y, (List.mem_filter.mp hy).1, (List.mem_filter.mp hy).2, rfl⟩
  · rintro ⟨x, hx, hkept, rfl⟩
    exact ⟨_, List.mem_map.mpr ⟨x, List.mem_filter.mpr ⟨hx, hkept⟩, rfl⟩, rfl⟩

theorem lt_of_mem_exits (h : a ∈ g.exits b) : b < g.size := by
  by_contra hout
  simp [exits, succs, handlers, block_of_size_le (Nat.le_of_not_lt hout)] at h

theorem lt_of_mem_succs (h : a ∈ g.succs b) : b < g.size := lt_of_mem_exits (List.mem_append_left _ h)

theorem lt_of_mem_handlers (h : a ∈ g.handlers b) : b < g.size := lt_of_mem_exits (List.mem_append_right _ h)

section

variable {size : Nat} {targets : Nat → List Nat} {a b : Nat}

/-- A block is put on a list as often as it leads there. -/
theorem getElem?_putAll (a b : Nat) (ns : List Nat) (sources : Array (List Nat)) :
    (ns.foldl (fun sources n => sources.modify n (· ++ [a])) sources)[b]?
      = sources[b]?.map (· ++ List.replicate (ns.count b) a) := by
  induction ns generalizing sources with
  | nil => simp
  | cons n ns ih =>
      rw [List.foldl_cons, ih, Array.getElem?_modify, List.count_cons]
      by_cases hn : n = b
      · simp [hn, List.replicate_succ, Function.comp_def]
      · simp [hn]

/-- On the list of a block, each block stands as often as it leads there, in their order. -/
theorem getElem?_turnRound (b : Nat) : (turnRound size targets)[b]? =
    if b < size then some ((List.range size).flatMap fun a => List.replicate ((targets a).count b) a) else none := by
  have hgo (as : List Nat) (sources : Array (List Nat)) :
      (as.foldl (fun sources a => (targets a).foldl (fun sources n => sources.modify n (· ++ [a])) sources) sources)[b]?
        = sources[b]?.map (· ++ as.flatMap fun a => List.replicate ((targets a).count b) a) := by
    induction as generalizing sources with
    | nil => simp
    | cons a as ih => simp [ih, getElem?_putAll, Function.comp_def]
  rw [turnRound, hgo, Array.getElem?_replicate]
  split <;> rfl

theorem mem_turnRound : a ∈ ((turnRound size targets)[b]?).getD [] ↔ a < size ∧ b < size ∧ b ∈ targets a := by
  rw [getElem?_turnRound]
  split
  · rename_i hb
    simp only [Option.getD_some, List.mem_flatMap, List.mem_range, List.mem_replicate, ne_eq, List.count_eq_zero, not_not]
    constructor
    · rintro ⟨_, ha, hedge, rfl⟩
      exact ⟨ha, hb, hedge⟩
    · rintro ⟨ha, -, hedge⟩
      exact ⟨a, ha, hedge, rfl⟩
  · rename_i hb
    simp [hb]

end

theorem mem_preds : a ∈ g.preds b ↔ b < g.size ∧ b ∈ g.succs a := by
  rw [preds, mem_turnRound]
  exact and_iff_right_of_imp fun h => lt_of_mem_succs h.2

theorem mem_exceptionPreds : a ∈ g.exceptionPreds b ↔ b < g.size ∧ b ∈ g.handlers a := by
  rw [exceptionPreds, mem_turnRound]
  exact and_iff_right_of_imp fun h => lt_of_mem_handlers h.2

end Graph

/-- The offsets at which the successors of a block that ends with the operation are looked up, in their order. -/
def Op.jumps : Op → List Nat
  | .goto target | .jumpIf _ target => [target]
  | .switchOn _ targets default => default.toList ++ targets
  | _ => []

theorem Op.mem_jumps {op : Op} {t : Nat} : t ∈ op.jumps ↔ t ∈ op.targets := by
  cases op with
  | switchOn keys targets default =>
      rw [jumps, Op.targets, List.mem_append, List.mem_append, or_comm]
  | _ => rfl

/-- What is wrong if control falls through the last instruction of the code. -/
def Insn.fallsOff (i : Insn) : Inconsistency :=
  match i.op with
  | .jumpIf .. => .branchFallsOff i.offset
  | .switchOn .. => .switchFallsOff i.offset
  | _ => .executionFallsOff i.offset

namespace Graph

open JavaLift.Digraph

variable {g : Graph} {insns : List Insn} {tries : List TryRange} {length : Nat}

def runs (insns : List Insn) (tries : List TryRange) (length : Nat) : List (List Insn) :=
  cut (markStarts (leaders insns tries length) [] insns)

def startsOf (runs : List (List Insn)) : List Nat := runs.map fun run => run.head?.elim 0 fun i => i.offset

theorem findBlock_lt {starts : List Nat} {offset b : Nat} (h : findBlock starts offset = .ok b) :
    b < starts.length := by
  unfold findBlock at h
  split at h
  · rename_i hidx
    cases h
    exact (List.findIdx?_eq_some_iff_getElem.mp hidx).1
  · cases h

theorem mem_distinct {bs : List Nat} {b : Nat} : b ∈ distinct bs ↔ b ∈ bs := by
  suffices ∀ kept : List Nat, b ∈ bs.foldl (fun kept b => if kept.contains b then kept else kept ++ [b]) kept ↔
      b ∈ kept ∨ b ∈ bs by simpa [distinct] using this []
  induction bs with
  | nil => simp
  | cons c bs ih =>
      intro kept
      rw [List.foldl_cons, ih, List.mem_cons]
      split
      · rename_i hc
        have hc' : c ∈ kept := by simpa using hc
        constructor
        · exact Or.imp_right .inr
        · rintro (h | rfl | h)
          · exact .inl h
          · exact .inl hc'
          · exact .inr h
      · simp [or_assoc]

/-- The successors are the next block, if control falls through, and those that are looked up. -/
theorem normalEdges_eq (starts : List Nat) (b : Nat) (last : Insn) :
    normalEdges starts b last = last.op.jumps.mapM (findBlock starts) >>= fun found =>
      .ok ((if last.op.fallsThrough then (fallThrough? starts b).toList else []) ++ found,
        if last.op.fallsThrough && (fallThrough? starts b).isNone then some last.fallsOff else none) := by
  unfold normalEdges Insn.fallsOff
  cases hop : last.op with
  | goto target =>
      simp only [Op.jumps, List.mapM_cons, List.mapM_nil]
      cases findBlock starts target <;> rfl
  | jumpIf cmp target =>
      simp only [Op.jumps, List.mapM_cons, List.mapM_nil]
      cases findBlock starts target <;> rfl
  | switchOn keys targets default =>
      cases default with
      | none => simp only [Op.jumps, Option.toList_none, List.nil_append]; rfl
      | some d =>
        simp only [Op.jumps, Option.toList_some, List.singleton_append, List.mapM_cons]
        cases findBlock starts d with
        | error e => rfl
        | ok t => cases targets.mapM (findBlock starts) <;> rfl
  | _ =>
      simp only [Op.jumps, List.mapM_nil]
      cases fallThrough? starts b <;> rfl

/-- The ways that lead from the last instruction of block `b`, and what is wrong if control runs off the end there. -/
inductive Edges (starts : List Nat) (b : Nat) (last : Insn) : List Nat → Option Inconsistency → Prop
  | goto {target t : Nat} (op : last.op = .goto target) (found : findBlock starts target = .ok t) :
    Edges starts b last [t] none
  | jumpIf {cmp : CmpOp} {target t : Nat} {cause : Option Inconsistency} (op : last.op = .jumpIf cmp target)
      (found : findBlock starts target = .ok t) (falls : cause = none → ∃ n, fallThrough? starts b = some n) :
      Edges starts b last ((fallThrough? starts b).toList ++ [t]) cause
  | switchOn {keys : List Int} {targets first rest : List Nat} {default : Option Nat} {cause : Option Inconsistency}
      (op : last.op = .switchOn keys targets default) (found : targets.mapM (findBlock starts) = .ok rest)
      (leads : ∀ n ∈ first, n < starts.length) (falls : cause = none → first ≠ []) :
        Edges starts b last (first ++ rest) cause
  | exit (op : last.op = .ret ∨ last.op = .throw) : Edges starts b last [] none
  | next {cause : Option Inconsistency} (op : last.op.isTerminator = false)
      (falls : cause = none → ∃ n, fallThrough? starts b = some n) :
        Edges starts b last (fallThrough? starts b).toList cause

theorem fallThrough?_lt {starts : List Nat} {b : Nat} : ∀ n ∈ (fallThrough? starts b).toList, n < starts.length := by
  intro n hn
  unfold fallThrough? at hn
  split at hn
  · obtain rfl : n = b + 1 := by simpa using hn
    assumption
  · cases hn

theorem edges_of_normalEdges {starts : List Nat} {b : Nat} {last : Insn} {succs : List Nat}
    {cause : Option Inconsistency}
    (h : normalEdges starts b last = .ok (succs, cause)) : Edges starts b last succs cause := by
  have hfalls {c : Inconsistency} (hc : (if (fallThrough? starts b).isNone = true then some c else none) = none) :
      ∃ n, fallThrough? starts b = some n := by
    cases hnext : fallThrough? starts b with
    | none => simp [hnext] at hc
    | some n => exact ⟨n, rfl⟩
  unfold normalEdges at h
  cases hop : last.op with
  | goto target =>
      rw [hop] at h
      obtain ⟨t, ht, h⟩ := bind_eq_ok.mp h
      cases h
      exact .goto hop ht
  | jumpIf cmp target =>
      rw [hop] at h
      obtain ⟨t, ht, h⟩ := bind_eq_ok.mp h
      cases h
      exact .jumpIf hop ht hfalls
  | switchOn keys targets default =>
      rw [hop] at h
      cases default with
      | some d =>
          obtain ⟨t, ht, h⟩ := bind_eq_ok.mp h
          obtain ⟨_, hfirst, h⟩ := bind_eq_ok.mp h
          cases hfirst
          obtain ⟨rest, hrest, h⟩ := bind_eq_ok.mp h
          cases h
          exact .switchOn hop hrest (by simpa using findBlock_lt ht) nofun
      | none =>
          obtain ⟨_, hfirst, h⟩ := bind_eq_ok.mp h
          cases hfirst
          obtain ⟨rest, hrest, h⟩ := bind_eq_ok.mp h
          cases h
          refine .switchOn hop hrest fallThrough?_lt fun hc => ?_
          obtain ⟨n, hn⟩ := hfalls hc
          simp [hn]
  | ret =>
      rw [hop] at h
      cases h
      exact .exit (.inl hop)
  | throw =>
      rw [hop] at h
      cases h
      exact .exit (.inr hop)
  | _ =>
      rw [hop] at h
      cases h
      exact .next (by rw [hop]; rfl) hfalls

theorem Edges.lt {starts : List Nat} {b : Nat} {last : Insn} {succs : List Nat} {cause : Option Inconsistency}
    (h : Edges starts b last succs cause) : ∀ n ∈ succs, n < starts.length := by
  intro n hn
  cases h with
  | goto _ found => exact List.mem_singleton.mp hn ▸ findBlock_lt found
  | jumpIf _ found _ =>
      rcases List.mem_append.mp hn with hn | hn
      · exact fallThrough?_lt n hn
      · exact List.mem_singleton.mp hn ▸ findBlock_lt found
  | switchOn _ found leads _ =>
      rcases List.mem_append.mp hn with hn | hn
      · exact leads n hn
      · obtain ⟨t, -, ht⟩ := exists_of_mem_mapM found hn
        exact findBlock_lt ht
  | exit => cases hn
  | next => exact fallThrough?_lt n hn

theorem ne_nil_of_mem_cut {marked : List (Bool × Insn)} {run : List Insn} (h : run ∈ cut marked) : run ≠ [] := by
  induction marked with
  | nil => cases h
  | cons m rest ih =>
      obtain ⟨_, i⟩ := m
      unfold cut at h
      split at h
      · rename_i heq
        rw [heq] at ih
        rcases List.mem_cons.mp h with rfl | h
        · simp
        · exact ih (List.mem_cons_of_mem _ h)
      · rcases List.mem_cons.mp h with rfl | h
        · simp
        · exact ih h

theorem cut_ne_nil {marked : List (Bool × Insn)} (h : marked ≠ []) : cut marked ≠ [] := by
  cases marked with
  | nil => exact absurd rfl h
  | cons m rest =>
      unfold cut
      split <;> simp

theorem runs_ne_nil (h : insns ≠ []) : runs insns tries length ≠ [] := by
  apply cut_ne_nil
  cases insns with
  | nil => exact absurd rfl h
  | cons i rest => simp [markStarts]

theorem mem_handlersOf {regions : List TryRegion} {b h : Nat} :
    h ∈ handlersOf regions b ↔ ∃ t ∈ regions, b ∈ t.covered ∧ ∃ x ∈ t.handlers, x.block = h := by
  simp [handlersOf, mem_distinct, and_assoc]

theorem tryRegion_lt {starts : List Nat} {t : TryRange} {region : TryRegion} (h : tryRegion starts t = .ok region) :
    (∀ b ∈ region.covered, b < starts.length) ∧ ∀ x ∈ region.handlers, x.block < starts.length := by
  obtain ⟨handlers, hhandlers, h⟩ := bind_eq_ok.mp h
  cases h
  refine ⟨fun b hb => ?_, fun x hx => ?_⟩
  · obtain ⟨⟨start, b⟩, hmem, rfl⟩ := List.mem_map.mp hb
    have := (List.mem_zipIdx (List.mem_filter.mp hmem).1).2.1
    omega
  · obtain ⟨y, -, hy⟩ := exists_of_mem_mapM hhandlers hx
    obtain ⟨n, hn, hy⟩ := bind_eq_ok.mp hy
    cases hy
    exact findBlock_lt hn

/-- The blocks and the guarded ranges before any block is left out. -/
structure Drafted (insns : List Insn) (tries : List TryRange) (length : Nat) (drafts : List Draft)
    (regions : List TryRegion) :
    Prop where
  size : drafts.length = (runs insns tries length).length
  block : ∀ b d, drafts[b]? = some d → ∃ run last succs, (runs insns tries length)[b]? = some run ∧
    run.getLast? = some last ∧ Edges (startsOf (runs insns tries length)) b last succs d.cause ∧
    d.block = ⟨run.head?.elim 0 fun i => i.offset, run, distinct succs, handlersOf regions b⟩
  regions : tries.mapM (tryRegion (startsOf (runs insns tries length))) = .ok regions

def edgesOf (starts : List Nat) (block : List Insn × Nat) : Except Inconsistency (List Nat × Option Inconsistency) :=
  match block.1.getLast? with
  | some last => normalEdges starts block.2 last
  | none => .ok ([], none)

theorem draft_eq_ok {drafts : List Draft} {regions : List TryRegion}
    (h : draft insns tries length = .ok (drafts, regions)) :
    ∃ edges, (runs insns tries length).zipIdx.mapM (edgesOf (startsOf (runs insns tries length))) = .ok edges ∧
      tries.mapM (tryRegion (startsOf (runs insns tries length))) = .ok regions ∧
      drafts = ((runs insns tries length).zip ((startsOf (runs insns tries length)).zip edges)).zipIdx.map
        fun ((run, start, succs, cause), b) => Draft.mk ⟨start, run, distinct succs, handlersOf regions b⟩ cause := by
  obtain ⟨edges, hedges, h⟩ := bind_eq_ok.mp h
  obtain ⟨regions', hregions, h⟩ := bind_eq_ok.mp h
  cases h
  exact ⟨edges, hedges, hregions, rfl⟩

theorem length_of_draft {drafts : List Draft} {regions : List TryRegion}
    (h : draft insns tries length = .ok (drafts, regions)) : drafts.length = (runs insns tries length).length := by
  obtain ⟨edges, hedges, -, rfl⟩ := draft_eq_ok h
  have hlen : (runs insns tries length).length = edges.length := by
    simpa only [List.length_zipIdx] using (forall₂_of_mapM hedges).length_eq
  simp [startsOf, hlen]

/-- A block has the edges that its last instruction gives it. -/
theorem exists_normalEdges {drafts : List Draft} {regions : List TryRegion}
    (h : draft insns tries length = .ok (drafts, regions)) {b : Nat} {d : Draft} (hd : drafts[b]? = some d) :
    ∃ run last succs, (runs insns tries length)[b]? = some run ∧ run.getLast? = some last ∧
      normalEdges (startsOf (runs insns tries length)) b last = .ok (succs, d.cause) ∧
      d.block = ⟨run.head?.elim 0 fun i => i.offset, run, distinct succs, handlersOf regions b⟩ := by
  obtain ⟨edges, hedges, hregions, rfl⟩ := draft_eq_ok h
  have hall := forall₂_of_mapM hedges
  have hlen : (runs insns tries length).length = edges.length := by simpa only [List.length_zipIdx] using hall.length_eq
  have hb : b < (runs insns tries length).length := by
    have := (List.getElem?_eq_some_iff.mp hd).1
    simpa [startsOf, hlen] using this
  have hedge := hall.get (i := b) (by simpa only [List.length_zipIdx] using hb) (by omega)
  simp only [List.get_eq_getElem, List.getElem_zipIdx, Nat.zero_add] at hedge
  have hne := ne_nil_of_mem_cut (List.getElem_mem hb)
  obtain ⟨last, hlast⟩ : ∃ last, (runs insns tries length)[b].getLast? = some last :=
    ⟨_, List.getLast?_eq_some_getLast hne⟩
  simp only [edgesOf, hlast] at hedge
  have hb' : b < edges.length := hlen ▸ hb
  have hd' : d = ⟨⟨(runs insns tries length)[b].head?.elim 0 fun i => i.offset, (runs insns tries length)[b],
      distinct edges[b].1, handlersOf regions b⟩, edges[b].2⟩ := by
    simpa [startsOf, hb, hb', eq_comm] using hd
  subst hd'
  exact ⟨_, last, _, List.getElem?_eq_getElem hb, hlast, hedge, rfl⟩

theorem drafted_of_draft {drafts : List Draft} {regions : List TryRegion}
    (h : draft insns tries length = .ok (drafts, regions)) :
    Drafted insns tries length drafts regions := by
  obtain ⟨_, -, hregions, -⟩ := draft_eq_ok h
  refine ⟨length_of_draft h, fun b d hd => ?_, hregions⟩
  obtain ⟨run, last, succs, hrun, hlast, hedges, hblock⟩ := exists_normalEdges h hd
  exact ⟨run, last, succs, hrun, hlast, edges_of_normalEdges hedges, hblock⟩

def whole (drafts : List Draft) (regions : List TryRegion) : Graph := ⟨(drafts.map (·.block)).toArray, 0, regions⟩

def keptOf (g : Graph) : Array Bool := g.digraph.reach (fun _ => false) [g.entry]

def pruned (g : Graph) : Graph := if g.keptOf.all id then g else g.restrict g.keptOf

theorem build_eq_ok (h : build insns tries length = .ok g) :
    insns ≠ [] ∧ checkTargets insns tries length = .ok () ∧
      ∃ drafts regions, Drafted insns tries length drafts regions ∧
      (∀ b d, drafts[b]? = some d → has (whole drafts regions).keptOf b = true → d.cause = none) ∧
      g = (whole drafts regions).pruned := by
  unfold build at h
  by_cases hempty : insns.isEmpty = true
  · rw [if_pos hempty] at h
    cases h
  · rw [if_neg hempty] at h
    obtain ⟨_, hcheck, h⟩ := bind_eq_ok.mp h
    obtain ⟨⟨drafts, regions⟩, hdraft, h⟩ := bind_eq_ok.mp h
    refine ⟨by simpa using hempty, hcheck, drafts, regions, drafted_of_draft hdraft, ?_⟩
    simp only at h
    split at h
    · cases h
    · rename_i hnone
      have hnone := List.findSome?_eq_none_iff.mp (Option.eq_none_iff_forall_not_mem.mpr hnone)
      cases h
      refine ⟨fun b d hd hb => hnone d (List.mem_map.mpr ⟨(d, b), ?_, rfl⟩), rfl⟩
      exact List.mem_filter.mpr ⟨List.mem_zipIdx_iff_getElem?.mpr hd, hb⟩

/-- Edges lead to blocks, and a block goes on to a handler exactly if a guarded range with that handler covers it. -/
structure Closed (g : Graph) : Prop where
  entry_lt : g.entry < g.size
  exits_lt : ∀ b, ∀ n ∈ g.exits b, n < g.size
  covered_lt : ∀ t ∈ g.tries, ∀ b ∈ t.covered, b < g.size
  mem_handlers : ∀ b < g.size, ∀ h, h ∈ g.handlers b ↔ ∃ t ∈ g.tries, b ∈ t.covered ∧ ∃ x ∈ t.handlers, x.block = h

theorem size_whole (drafts : List Draft) (regions : List TryRegion) : (whole drafts regions).size = drafts.length := by
  simp [whole, size]

theorem block_whole {drafts : List Draft} {regions : List TryRegion} {b : Nat} {d : Draft} (h : drafts[b]? = some d) :
    (whole drafts regions).block b = d.block := by simp [whole, block, h]

section

variable {drafts : List Draft} {regions : List TryRegion} (h : Drafted insns tries length drafts regions)
include h

theorem Drafted.starts_length : (startsOf (runs insns tries length)).length = (whole drafts regions).size := by
  rw [size_whole, h.size, startsOf, List.length_map]

theorem Drafted.closed (hne : insns ≠ []) : (whole drafts regions).Closed := by
  have hregion : ∀ t ∈ regions, (∀ b ∈ t.covered, b < (whole drafts regions).size) ∧
      ∀ x ∈ t.handlers, x.block < (whole drafts regions).size := by
    intro t ht
    obtain ⟨r, -, hr⟩ := exists_of_mem_mapM h.regions ht
    simpa only [h.starts_length] using tryRegion_lt hr
  have hblock : ∀ b < (whole drafts regions).size, ∃ d, drafts[b]? = some d := fun b hb =>
    ⟨_, List.getElem?_eq_getElem (size_whole drafts regions ▸ hb)⟩
  refine ⟨?_, fun b n hn => ?_, fun t ht => (hregion t ht).1, fun b hb => ?_⟩
  · have := List.length_pos_iff.mpr (runs_ne_nil hne : runs insns tries length ≠ [])
    rw [size_whole, h.size]
    exact this
  · obtain ⟨d, hd⟩ := hblock b (lt_of_mem_exits hn)
    obtain ⟨run, last, succs, -, -, hedges, hblock⟩ := h.block b d hd
    rcases List.mem_append.mp hn with hn | hn
    · rw [Graph.succs, block_whole hd, hblock, mem_distinct] at hn
      exact h.starts_length ▸ hedges.lt n hn
    · rw [Graph.handlers, block_whole hd, hblock, mem_handlersOf] at hn
      obtain ⟨t, ht, -, x, hx, rfl⟩ := hn
      exact (hregion t ht).2 x hx
  · obtain ⟨d, hd⟩ := hblock b hb
    obtain ⟨run, last, succs, -, -, -, hblock⟩ := h.block b d hd
    intro x
    rw [Graph.handlers, block_whole hd, hblock, mem_handlersOf]
    rfl

end

theorem kept_of_exit (hg : g.Closed) {b n : Nat} (hb : has g.keptOf b = true) (hn : n ∈ g.exits b) :
    has g.keptOf n = true :=
  has_reach.mpr (.step (has_reach.mp hb) hn (hg.exits_lt b n hn) rfl)

theorem kept_entry (hg : g.Closed) : has g.keptOf g.entry = true := has_reach.mpr (.root (by simp) hg.entry_lt rfl)

/-- The blocks that can be reached, by their numbers in the graph of all blocks. -/
theorem pruned_cases (g : Graph) :
    (g.pruned = g ∧ ∀ b < g.size, has g.keptOf b = true) ∨ g.pruned = g.restrict g.keptOf := by
  unfold pruned
  split
  · rename_i hall
    refine .inl ⟨rfl, fun b hb => ?_⟩
    have hsize : b < g.keptOf.size := by rwa [keptOf, size_reach]
    rw [Array.all_eq_true] at hall
    simpa [has, hsize] using hall b hsize
  · exact .inr rfl

section

variable (hg : g.Closed)
include hg

omit hg in
theorem exits_restrict {b : Nat} (hb : has g.keptOf b = true) (hlt : b < g.size) :
    (g.restrict g.keptOf).exits (renumber g.keptOf b) = keep g.keptOf (g.exits b) := by
  rw [exits, succs_restrict hb hlt, handlers_restrict hb hlt, keep, keep, ← List.map_append, ← List.filter_append]
  rfl

theorem Closed.restrict : (g.restrict g.keptOf).Closed := by
  refine ⟨renumber_lt_size (kept_entry hg) hg.entry_lt, fun b n hn => ?_, fun t ht b hb => ?_, fun k hk => ?_⟩
  · obtain ⟨c, hc, hhas, rfl⟩ := exists_kept (lt_of_mem_exits hn)
    rw [exits_restrict hhas hc, mem_keep] at hn
    obtain ⟨m, hm, hkept, rfl⟩ := hn
    exact renumber_lt_size hkept (hg.exits_lt c m hm)
  · obtain ⟨t, htry, rfl, -⟩ := mem_tries_restrict.mp ht
    obtain ⟨c, hc, hkept, rfl⟩ := mem_keep.mp hb
    exact renumber_lt_size hkept (hg.covered_lt t htry c hc)
  · obtain ⟨b, hb, hkept, rfl⟩ := exists_kept hk
    intro n
    rw [handlers_restrict hkept hb, mem_keep]
    constructor
    · rintro ⟨c, hc, hhas, rfl⟩
      obtain ⟨t, ht, hcovered, x, hx, rfl⟩ := (hg.mem_handlers b hb c).mp hc
      have hcovered' : renumber g.keptOf b ∈ (restrictTry g.keptOf t).covered := (mem_keep_renumber hkept).mpr hcovered
      obtain ⟨y, hy, hyx⟩ := mem_handlers_restrictTry.mpr ⟨x, hx, hhas, rfl⟩
      exact ⟨_, mem_tries_restrict.mpr ⟨t, ht, rfl, List.ne_nil_of_mem hcovered', List.ne_nil_of_mem hy⟩, hcovered', y,
        hy, hyx⟩
    · rintro ⟨t', ht', hcovered, hx⟩
      obtain ⟨t, ht, rfl, -⟩ := mem_tries_restrict.mp ht'
      obtain ⟨x, hxmem, hhas, rfl⟩ := mem_handlers_restrictTry.mp hx
      exact ⟨x.block, (hg.mem_handlers b hb _).mpr ⟨t, ht, (mem_keep_renumber hkept).mp hcovered, x, hxmem, rfl⟩,
        hhas, rfl⟩

theorem Closed.pruned : g.pruned.Closed := by
  rcases pruned_cases g with ⟨h, -⟩ | h
  · rwa [h]
  · rw [h]
    exact hg.restrict

omit hg in
theorem reached_restrict {b : Nat} (hb : g.digraph.Reaches (fun _ => false) [g.entry] b) :
    (g.restrict g.keptOf).digraph.Reaches (fun _ => false) [(g.restrict g.keptOf).entry] (renumber g.keptOf b) := by
  have hsize {c : Nat} (hc : g.digraph.Reaches (fun _ => false) [g.entry] c) :
      renumber g.keptOf c < (g.restrict g.keptOf).size := renumber_lt_size (has_reach.mpr hc) hc.lt
  induction hb with
  | root hroot hlt hfree =>
      obtain rfl := List.mem_singleton.mp hroot
      exact .root (by simp [Graph.restrict]) (hsize (.root hroot hlt hfree)) rfl
  | step ha hedge hlt hfree ih =>
      refine .step ih ?_ (hsize (.step ha hedge hlt hfree)) rfl
      change _ ∈ (g.restrict g.keptOf).exits _
      rw [exits_restrict (has_reach.mpr ha) ha.lt]
      exact (mem_keep_renumber (has_reach.mpr (.step ha hedge hlt hfree))).mpr hedge

omit hg in
theorem reached_pruned : ∀ b < g.pruned.size, g.pruned.digraph.Reaches (fun _ => false) [g.pruned.entry] b := by
  intro b hb
  rcases pruned_cases g with ⟨h, hall⟩ | h
  · rw [h] at hb ⊢
    exact has_reach.mp (hall b hb)
  · rw [h] at hb ⊢
    obtain ⟨c, -, hkept, rfl⟩ := exists_kept hb
    exact reached_restrict (has_reach.mp hkept)

end

theorem build_closed (h : build insns tries length = .ok g) : g.Closed := by
  obtain ⟨hne, -, drafts, regions, hdrafted, -, rfl⟩ := build_eq_ok h
  exact (hdrafted.closed hne).pruned

theorem build_reached (h : build insns tries length = .ok g) :
    ∀ b < g.size, g.digraph.Reaches (fun _ => false) [g.entry] b := by
  obtain ⟨-, -, drafts, regions, -, -, rfl⟩ := build_eq_ok h
  exact reached_pruned

/-- Edges lead to blocks, and ways from the entry to every block. -/
structure Rooted (g : Graph) : Prop where
  entry_lt : g.entry < g.size
  exits_lt : ∀ b, ∀ n ∈ g.exits b, n < g.size
  reached : ∀ b < g.size, g.digraph.Reaches (fun _ => false) [g.entry] b

theorem build_rooted (h : build insns tries length = .ok g) : g.Rooted :=
  ⟨(build_closed h).entry_lt, (build_closed h).exits_lt, build_reached h⟩

end Graph

end JavaLift
