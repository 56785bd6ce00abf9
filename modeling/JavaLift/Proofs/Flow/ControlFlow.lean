import JavaLift.Proofs.Flow.Slicing

namespace JavaLift.Graph

open JavaLift.Digraph

variable {insns : List Insn} {tries : List TryRange} {length b c k n t : Nat} {i : Insn} {run : List Insn}

inductive Executed (insns : List Insn) (tries : List TryRange) : Nat → Prop where
  | start : insns ≠ [] → Executed insns tries 0
  | leads {n m : Nat} : Executed insns tries n → Leads insns n m → Executed insns tries m
  | throws {n m : Nat} : Executed insns tries n → Throws insns tries n m → Executed insns tries m

def RunsOff (insns : List Insn) (tries : List TryRange) : Prop :=
  ∃ i, insns.getLast? = some i ∧ i.op.fallsThrough = true ∧ Executed insns tries (insns.length - 1)

/-- Some of the blocks of a graph, with their old numbers, and with all blocks that the edges lead to. -/
structure Selects (g g' : Graph) (old : Nat → Nat) : Prop where
  lt : ∀ k < g'.size, old k < g.size
  mono : ∀ j k, j < k → k < g'.size → old j < old k
  insns : ∀ k < g'.size, (g'.block k).insns = (g.block (old k)).insns
  start : ∀ k < g'.size, (g'.block k).start = (g.block (old k)).start
  succs : ∀ k < g'.size, ∀ c, c ∈ g'.succs k ↔ c < g'.size ∧ old c ∈ g.succs (old k)
  handlers : ∀ k < g'.size, ∀ c, c ∈ g'.handlers k ↔ c < g'.size ∧ old c ∈ g.handlers (old k)
  exits : ∀ k < g'.size, ∀ n ∈ g.exits (old k), ∃ c < g'.size, old c = n
  entry : g'.entry < g'.size ∧ old g'.entry = g.entry

section

variable {g g' : Graph} {first old : Nat → Nat}

theorem selects_self (hg : g.Closed) : g.Selects g id := by
  refine ⟨fun k hk => hk, fun j k hjk _ => hjk, fun k _ => rfl, fun k _ => rfl, fun k _ c => ?_, fun k _ c => ?_,
    fun k _ n hn => ⟨n, hg.exits_lt k n hn, rfl⟩, hg.entry_lt, rfl⟩
  · exact (and_iff_right_of_imp fun h => hg.exits_lt k c (List.mem_append_left _ h)).symm
  · exact (and_iff_right_of_imp fun h => hg.exits_lt k c (List.mem_append_right _ h)).symm

def oldNumber (g : Graph) (k : Nat) : Nat := ((keptBelow g.keptOf g.size)[k]?).getD 0

theorem oldNumber_renumber (hb : has g.keptOf b = true) (hlt : b < g.size) :
    g.oldNumber (renumber g.keptOf b) = b := by
  rw [oldNumber, keptBelow_get hb hlt, Option.getD_some]

theorem oldNumber_lt {j : Nat} (hjk : j < k) (hk : k < (g.restrict g.keptOf).size) :
    g.oldNumber j < g.oldNumber k := by
  obtain ⟨a, ha, hhas, rfl⟩ := exists_kept (hjk.trans hk)
  obtain ⟨b, hb, hhas', rfl⟩ := exists_kept hk
  rw [oldNumber_renumber hhas ha, oldNumber_renumber hhas' hb]
  exact lt_of_renumber_lt hhas' hjk

theorem mem_keep_iff {bs : List Nat} (hbs : ∀ c ∈ bs, c < g.size) (c : Nat) :
    c ∈ keep g.keptOf bs ↔ c < (g.restrict g.keptOf).size ∧ g.oldNumber c ∈ bs := by
  constructor
  · intro hc
    obtain ⟨m, hm, hhas, rfl⟩ := mem_keep.mp hc
    exact ⟨renumber_lt_size hhas (hbs m hm), by rwa [oldNumber_renumber hhas (hbs m hm)]⟩
  · rintro ⟨hc, hmem⟩
    obtain ⟨m, hm, hhas, rfl⟩ := exists_kept hc
    rw [oldNumber_renumber hhas hm] at hmem
    exact (mem_keep_renumber hhas).mpr hmem

theorem selects_restrict (hg : g.Closed) : g.Selects (g.restrict g.keptOf) g.oldNumber := by
  refine ⟨fun k hk => ?_, fun j k hjk hk => oldNumber_lt hjk hk, fun k hk => ?_, fun k hk => ?_, fun k hk => ?_,
    fun k hk => ?_, fun k hk n hn => ?_, ?_⟩
  · obtain ⟨b, hb, hhas, rfl⟩ := exists_kept hk
    rwa [oldNumber_renumber hhas hb]
  · obtain ⟨b, hb, hhas, rfl⟩ := exists_kept hk
    rw [oldNumber_renumber hhas hb, block_restrict hhas hb]
  · obtain ⟨b, hb, hhas, rfl⟩ := exists_kept hk
    rw [oldNumber_renumber hhas hb, block_restrict hhas hb]
  · obtain ⟨b, hb, hhas, rfl⟩ := exists_kept hk
    rw [oldNumber_renumber hhas hb, succs_restrict hhas hb]
    exact mem_keep_iff fun c hc => hg.exits_lt b c (List.mem_append_left _ hc)
  · obtain ⟨b, hb, hhas, rfl⟩ := exists_kept hk
    rw [oldNumber_renumber hhas hb, handlers_restrict hhas hb]
    exact mem_keep_iff fun c hc => hg.exits_lt b c (List.mem_append_right _ hc)
  · obtain ⟨b, hb, hhas, rfl⟩ := exists_kept hk
    rw [oldNumber_renumber hhas hb] at hn
    have hhas' := kept_of_exit hg hhas hn
    have hlt := hg.exits_lt b n hn
    exact ⟨_, renumber_lt_size hhas' hlt, oldNumber_renumber hhas' hlt⟩
  · exact ⟨renumber_lt_size (kept_entry hg) hg.entry_lt, oldNumber_renumber (kept_entry hg) hg.entry_lt⟩

theorem selects_pruned (hg : g.Closed) : ∃ old, g.Selects g.pruned old := by
  rcases pruned_cases g with ⟨heq, -⟩ | heq
  · rw [heq]
    exact ⟨id, selects_self hg⟩
  · rw [heq]
    exact ⟨g.oldNumber, selects_restrict hg⟩

namespace Sliced

/-- The edges of the blocks that are kept stay those of the instructions. -/
theorem select (h : Sliced insns tries length g first) (hs : g.Selects g' old) :
    Sliced insns tries length g' fun k => first (old k) := by
  constructor
  case order =>
    intro j k hjk hk
    rw [hs.insns j (hjk.trans hk)]
    exact h.order _ _ (hs.mono j k hjk hk) (hs.lt k hk)
  case slice =>
    intro k hk
    rw [hs.insns k hk]
    exact h.slice _ (hs.lt k hk)
  case start =>
    intro k hk
    rw [hs.insns k hk, hs.start k hk]
    exact h.start _ (hs.lt k hk)
  case terminator =>
    intro k hk
    rw [hs.insns k hk]
    exact h.terminator _ (hs.lt k hk)
  case boundary =>
    intro k hk
    rw [hs.insns k hk]
    exact h.boundary _ (hs.lt k hk)
  case succs =>
    intro k hk c
    rw [hs.succs k hk, hs.insns k hk, h.succs _ (hs.lt k hk)]
    exact and_congr_right fun hc => and_iff_right (hs.lt c hc)
  case leads =>
    intro k hk n hn
    rw [hs.insns k hk] at hn
    obtain ⟨c, hc, rfl⟩ := h.leads _ (hs.lt k hk) n hn
    have hsucc := (h.succs _ (hs.lt k hk) c).mpr ⟨hc, hn⟩
    obtain ⟨c', hc', rfl⟩ := hs.exits k hk c (List.mem_append_left _ hsucc)
    exact ⟨c', hc', rfl⟩
  case covers =>
    intro k hk
    rw [hs.insns k hk]
    exact h.covers _ (hs.lt k hk)
  case handlers =>
    intro k hk c
    rw [hs.handlers k hk, hs.insns k hk, h.handlers _ (hs.lt k hk)]
    exact and_congr_right fun hc => and_iff_right (hs.lt c hc)
  case catches =>
    intro k hk r hr hcovered x hx
    rw [hs.insns k hk] at hcovered
    obtain ⟨c, hc, htarget⟩ := h.catches _ (hs.lt k hk) r hr hcovered x hx
    have hhandler := (h.handlers _ (hs.lt k hk) c).mpr ⟨hc, r, hr, hcovered, x, hx, htarget⟩
    obtain ⟨c', hc', rfl⟩ := hs.exits k hk c (List.mem_append_right _ hhandler)
    exact ⟨c', hc', htarget⟩

variable (h : Sliced insns tries length g first)
include h

theorem getElem? (hb : b < g.size) (hk : k < (g.block b).insns.length) :
    insns[first b + k]? = (g.block b).insns[k]? := by
  rw [(h.slice b hb).2, List.getElem?_take_of_lt hk, List.getElem?_drop]

theorem pos (hb : b < g.size) : 0 < (g.block b).insns.length := List.length_pos_iff.mpr (h.slice b hb).1

/-- Within a block, control only goes on to the next instruction. -/
theorem leads_inside (hb : b < g.size) (hk : k + 1 < (g.block b).insns.length) :
    Leads insns (first b + k) n ↔ n = first b + (k + 1) := by
  have hhere := List.getElem?_eq_getElem (Nat.lt_of_succ_lt hk)
  have hnot : ¬ (g.block b).insns[k].op.isTerminator = true := by
    intro hterm
    have hlast := h.terminator b hb k _ hhere hterm
    omega
  rw [← h.getElem? hb (Nat.lt_of_succ_lt hk)] at hhere
  constructor
  · intro hleads
    cases hleads with
    | next _ _ step _ => rw [step, Nat.add_assoc]
    | jump here target _ =>
        cases hhere.symm.trans here
        exact absurd (Op.isTerminator_of_target target) hnot
  · rintro rfl
    have hnext := (h.getElem? hb hk).trans (List.getElem?_eq_getElem hk)
    refine .next hhere ?_ rfl (List.getElem?_eq_some_iff.mp hnext).1
    by_contra hstops
    exact hnot (Op.isTerminator_of_stops hstops)

theorem executed_of_first (hb : b < g.size) (hfirst : Executed insns tries (first b))
    (hk : k < (g.block b).insns.length) : Executed insns tries (first b + k) := by
  induction k with
  | zero => exact hfirst
  | succ k ih => exact .leads (ih (Nat.lt_of_succ_lt hk)) ((h.leads_inside hb hk).mpr rfl)

variable (hentry : g.entry < g.size) (hzero : first g.entry = 0)
include hentry hzero

/-- What can be executed is what is in the blocks that can be reached. -/
theorem executed_iff : Executed insns tries n ↔ ∃ b, g.digraph.Reaches (fun _ => false) [g.entry] b ∧
    first b ≤ n ∧ n < first b + (g.block b).insns.length := by
  constructor
  · intro hn
    induction hn with
    | start _ =>
        refine ⟨g.entry, .root (List.mem_singleton_self _) hentry rfl, hzero.le, ?_⟩
        rw [hzero, Nat.zero_add]
        exact h.pos hentry
    | @leads n m _ hleads ih =>
        obtain ⟨b, hreach, hle, hlt⟩ := ih
        have hb : b < g.size := hreach.lt
        obtain ⟨k, rfl⟩ := Nat.exists_eq_add_of_le hle
        by_cases hk : k + 1 < (g.block b).insns.length
        · obtain rfl := (h.leads_inside hb hk).mp hleads
          exact ⟨b, hreach, Nat.le_add_right _ _, Nat.add_lt_add_left hk _⟩
        · obtain rfl : k = (g.block b).insns.length - 1 := by omega
          obtain ⟨c, hc, rfl⟩ := h.leads b hb m hleads
          have hsucc := (h.succs b hb c).mpr ⟨hc, hleads⟩
          exact ⟨c, .step hreach (List.mem_append_left _ hsucc) hc rfl, le_rfl, Nat.lt_add_of_pos_right (h.pos hc)⟩
    | @throws n m _ hthrows ih =>
        obtain ⟨b, hreach, hle, hlt⟩ := ih
        have hb : b < g.size := hreach.lt
        obtain ⟨k, rfl⟩ := Nat.exists_eq_add_of_le hle
        obtain ⟨i, hi, r, hr, hcovered, x, hx, htarget⟩ := hthrows
        rw [h.getElem? hb (by omega)] at hi
        have hall := h.covers b hb r hr ⟨i, List.mem_of_getElem? hi, hcovered⟩
        obtain ⟨c, hc, htarget'⟩ := h.catches b hb r hr hall x hx
        obtain rfl : first c = m := Option.some.inj (htarget'.symm.trans htarget)
        have hhandler := (h.handlers b hb c).mpr ⟨hc, r, hr, hall, x, hx, htarget⟩
        exact ⟨c, .step hreach (List.mem_append_right _ hhandler) hc rfl, le_rfl, Nat.lt_add_of_pos_right (h.pos hc)⟩
  · rintro ⟨b, hreach, hle, hlt⟩
    obtain ⟨k, rfl⟩ := Nat.exists_eq_add_of_le hle
    refine h.executed_of_first hreach.lt ?_ (by omega)
    clear hle hlt
    induction hreach with
    | root hroot _ _ =>
        obtain rfl := List.mem_singleton.mp hroot
        rw [hzero]
        refine .start ?_
        rintro rfl
        exact (h.slice _ hentry).1 (by rw [(h.slice _ hentry).2]; simp)
    | @step a c ha hedge hc _ ih =>
        have ha' : a < g.size := ha.lt
        have hpos := h.pos ha'
        rcases List.mem_append.mp hedge with hedge | hedge
        · exact .leads (h.executed_of_first ha' ih (by omega)) ((h.succs a ha' c).mp hedge).2
        · obtain ⟨-, r, hr, hcovered, x, hx, htarget⟩ := (h.handlers a ha' c).mp hedge
          have hi := (h.getElem? ha' hpos).trans (List.getElem?_eq_getElem hpos)
          exact .throws ih ⟨_, hi, r, hr, hcovered _ (List.getElem_mem hpos), x, hx, htarget⟩

end Sliced

end

section

variable {drafts : List Draft} {regions : List TryRegion} {g : Graph}

/-- Once all bounds are at instructions, the only thing that can be wrong is a block that runs off the end. -/
theorem build_cases (hne : insns ≠ [])
    (hchecked : ∀ t ∈ bounds insns tries length, t < length ∧ t ∈ insns.map (·.offset))
    (hdraft : draft insns tries length = .ok (drafts, regions)) :
    ((∃ e, build insns tries length = .error e) ∧
        ∃ b d, drafts[b]? = some d ∧ has (whole drafts regions).keptOf b = true ∧ d.cause ≠ none) ∨
      build insns tries length = .ok (whole drafts regions).pruned ∧
        ∀ b d, drafts[b]? = some d → has (whole drafts regions).keptOf b = true → d.cause = none := by
  unfold build
  rw [if_neg (by simpa using hne), checkTargets_eq_ok.mpr hchecked]
  simp only [bind, Except.bind, hdraft]
  split
  · rename_i cause hcause
    obtain ⟨d, hd, hwrong⟩ := List.exists_of_findSome?_eq_some hcause
    obtain ⟨⟨d, b⟩, hmem, rfl⟩ := List.mem_map.mp hd
    obtain ⟨hget, hkept⟩ := List.mem_filter.mp hmem
    refine .inl ⟨⟨cause, rfl⟩, b, d, List.mem_zipIdx_iff_getElem?.mp hget, hkept, fun hnone => ?_⟩
    cases hwrong.symm.trans hnone
  · rename_i hnone
    have hnone := List.findSome?_eq_none_iff.mp (Option.eq_none_iff_forall_not_mem.mpr hnone)
    refine .inr ⟨rfl, fun b d hd hkept => hnone d (List.mem_map.mpr ⟨(d, b), ?_, rfl⟩)⟩
    exact List.mem_filter.mpr ⟨List.mem_zipIdx_iff_getElem?.mpr hd, hkept⟩

/-- A block that can be reached runs off the end exactly if the last instruction does. -/
theorem runsOff_iff (hin : InOrder insns length) (hne : insns ≠ [])
    (hchecked : ∀ t ∈ bounds insns tries length, t < length ∧ t ∈ insns.map (·.offset))
    (hdraft : draft insns tries length = .ok (drafts, regions)) : RunsOff insns tries ↔
      ∃ b d, drafts[b]? = some d ∧ has (whole drafts regions).keptOf b = true ∧ d.cause ≠ none := by
  have hsliced := sliced_whole hdraft hin hchecked
  have hclosed := (drafted_of_draft hdraft).closed hne
  have hsize := size_whole_eq hdraft
  have hexecuted (n : Nat) := hsliced.executed_iff (n := n) hclosed.entry_lt (by simp [whole, blockStart])
  have hcause {b : Nat} {d : Draft} {last : Insn} {succs : List Nat}
      (hedges : normalEdges (startsOf (runs insns tries length)) b last = .ok (succs, d.cause)) :
      d.cause ≠ none ↔ last.op.fallsThrough = true ∧ ¬ b + 1 < (runs insns tries length).length := by
    rw [Ne, (normalEdges_spec hedges).2, startsOf, List.length_map, Classical.not_imp]
  constructor
  · rintro ⟨i, hlast, hfalls, hend⟩
    obtain ⟨b, hreach, hle, hlt⟩ := (hexecuted _).mp hend
    obtain ⟨d, run, last, succs, hd, hrun, hlast', hedges, hblock⟩ := exists_whole_block hdraft hreach.lt
    simp only [hblock] at hlt
    have hmost : ¬ b + 1 < (runs insns tries length).length := by
      rw [succ_lt_iff hrun]
      omega
    cases hlast.symm.trans (getLast?_of_end hrun hlast' hmost)
    exact ⟨b, d, hd, has_reach.mpr hreach, (hcause hedges).mpr ⟨hfalls, hmost⟩⟩
  · rintro ⟨b, d, hd, hkept, hwrong⟩
    have hreach := has_reach.mp hkept
    obtain ⟨d', run, last, succs, hd', hrun, hlast, hedges, hblock⟩ := exists_whole_block hdraft hreach.lt
    cases hd.symm.trans hd'
    obtain ⟨hfalls, hmost⟩ := (hcause hedges).mp hwrong
    refine ⟨last, getLast?_of_end hrun hlast hmost, hfalls, (hexecuted _).mpr ⟨b, hreach, ?_⟩⟩
    have hinside := (List.getElem?_eq_some_iff.mp (getElem?_last hrun hlast)).1
    have hpos := length_run_pos hrun
    rw [succ_lt_iff hrun] at hmost
    simp only [hblock]
    omega

end

/-- The graph has the control flow of the instructions: its blocks are slices with the edges of the instructions, the
first of which begins with the first instruction, and they have what can be executed and nothing else. -/
structure Mirrors (insns : List Insn) (tries : List TryRange) (length : Nat) (g : Graph) (first : Nat → Nat) : Prop
    extends Sliced insns tries length g first where
  entry : g.entry < g.size ∧ first g.entry = 0
  onward : ∀ b < g.size, ∀ i, (g.block b).insns.getLast? = some i → i.op.fallsThrough = true →
    first b + (g.block b).insns.length < insns.length
  preds : ∀ b c, b ∈ g.preds c ↔ c ∈ g.succs b
  exceptionPreds : ∀ b c, b ∈ g.exceptionPreds c ↔ c ∈ g.handlers b
  kept : ∀ n, (∃ b < g.size, first b ≤ n ∧ n < first b + (g.block b).insns.length) ↔ Executed insns tries n

/-- Once the blocks that cannot be reached are left out, the graph has the control flow of the instructions. -/
theorem mirrors_pruned {drafts : List Draft} {regions : List TryRegion} (hin : InOrder insns length) (hne : insns ≠ [])
    (hchecked : ∀ t ∈ bounds insns tries length, t < length ∧ t ∈ insns.map (·.offset))
    (hdraft : draft insns tries length = .ok (drafts, regions)) (hstays : ¬ RunsOff insns tries) :
    ∃ first, Mirrors insns tries length (whole drafts regions).pruned first := by
  have hclosed := (drafted_of_draft hdraft).closed hne
  obtain ⟨old, hold⟩ := selects_pruned hclosed
  have hsliced := (sliced_whole hdraft hin hchecked).select hold
  have hzero : blockStart insns tries length (old (whole drafts regions).pruned.entry) = 0 := by
    rw [hold.entry.2]
    simp [whole, blockStart]
  have hkept (n : Nat) := hsliced.executed_iff (n := n) hold.entry.1 hzero
  have hall (b : Nat) (hb : b < (whole drafts regions).pruned.size) := reached_pruned b hb
  refine ⟨_, hsliced, ⟨hold.entry.1, hzero⟩, fun b hb i hlast hfalls => ?_, fun b c => ?_, fun b c => ?_, fun n => ?_⟩
  · have hpos := hsliced.pos hb
    have hget := hsliced.getElem? hb (Nat.sub_lt hpos Nat.one_pos)
    rw [← List.getLast?_eq_getElem?, hlast] at hget
    by_contra hge
    -- The instruction at the end of the block would be the last one of all.
    have hlt := (List.getElem?_eq_some_iff.mp hget).1
    have hend : blockStart insns tries length (old b) +
        (((whole drafts regions).pruned.block b).insns.length - 1) = insns.length - 1 := by omega
    rw [hend, ← List.getLast?_eq_getElem?] at hget
    refine hstays ⟨i, hget, hfalls, (hkept _).mpr ⟨b, hall b hb, ?_, ?_⟩⟩
    · omega
    · omega
  · rw [mem_preds]
    exact and_iff_right_of_imp fun h => hclosed.pruned.exits_lt b c (List.mem_append_left _ h)
  · rw [mem_exceptionPreds]
    exact and_iff_right_of_imp fun h => hclosed.pruned.exits_lt b c (List.mem_append_right _ h)
  · rw [hkept n]
    exact exists_congr fun b => and_congr_left fun _ => ⟨hall b, fun h => h.lt⟩

/-- The graph of some instructions has their control flow, and there is none exactly if there are no instructions, one
of the targets and bounds is not at an instruction within the code, or control can run off the end. -/
theorem build_mirrors (hin : InOrder insns length) :
    (∀ g, build insns tries length = .ok g → ∃ first, Mirrors insns tries length g first) ∧
      ((∃ e, build insns tries length = .error e) ↔ insns = [] ∨
        (∃ t ∈ bounds insns tries length, ¬ (t < length ∧ t ∈ insns.map (·.offset))) ∨ RunsOff insns tries) := by
  by_cases hne : insns = []
  · subst hne
    have hbuild : build [] tries length = .error .noInstructions := rfl
    rw [hbuild]
    exact ⟨nofun, by simp⟩
  by_cases hchecked : ∀ t ∈ bounds insns tries length, t < length ∧ t ∈ insns.map (·.offset)
  · obtain ⟨drafts, regions, hdraft⟩ := exists_draft hchecked
    have hoff := runsOff_iff hin hne hchecked hdraft
    have hbound : ¬ ∃ t ∈ bounds insns tries length, ¬ (t < length ∧ t ∈ insns.map (·.offset)) := by
      rintro ⟨t, ht, hout⟩
      exact hout (hchecked t ht)
    rcases build_cases hne hchecked hdraft with ⟨⟨e, he⟩, hwrong⟩ | ⟨hbuild, hfine⟩
    · rw [he]
      exact ⟨nofun, fun _ => .inr (.inr (hoff.mpr hwrong)), fun _ => ⟨e, rfl⟩⟩
    · have hstays : ¬ RunsOff insns tries := by
        rw [hoff]
        rintro ⟨b, d, hd, hkept, hwrong⟩
        exact hwrong (hfine b d hd hkept)
      rw [hbuild]
      refine ⟨?_, nofun, fun h => absurd h (by simp only [hne, hbound, hstays, or_self, not_false_eq_true])⟩
      rintro g hg
      cases hg
      exact mirrors_pruned hin hne hchecked hdraft hstays
  · have hbound : ∃ t ∈ bounds insns tries length, ¬ (t < length ∧ t ∈ insns.map (·.offset)) := by
      simpa only [not_forall, exists_prop] using hchecked
    obtain ⟨e, he, -⟩ := build_boundary_iff.mpr ⟨hne, hbound⟩
    rw [he]
    exact ⟨nofun, fun _ => .inr (.inl hbound), fun _ => ⟨e, rfl⟩⟩

/-- Calls `g`, and loads a constant and returns it if that fails. Two instructions are at the offset of the handler, and
one cannot be reached. -/
def callOrConstant : List Insn :=
  [.of (.invoke .static ⟨"Foo", "g", [], .int⟩) [] (some (.plain 0)) 0, .of .ret [.ofReg 0] none 3,
    .of .const [.lit 1 .int] (some (.plain 0)) 4, .of (.moveException none) [] (some (.plain 1)) 5,
    .of .const [.lit 2 .int] (some (.plain 0)) 5, .of .ret [.ofReg 0] none 6]

/-- The call and the handler make up the graph. The constant alone runs off the end. -/
theorem build_mirrors_callOrConstant :
    (∃ g, build callOrConstant [⟨0, 3, [⟨none, 5⟩]⟩] 7 = .ok g ∧
      ∃ first, Mirrors callOrConstant [⟨0, 3, [⟨none, 5⟩]⟩] 7 g first) ∧
    ∃ e, build (callOrConstant.drop 4).dropLast [] 7 = .error e :=
  ⟨⟨_, rfl, (build_mirrors ⟨by decide, by decide, by decide⟩).1 _ rfl⟩,
    (build_mirrors ⟨by decide, by decide, by decide⟩).2.mpr
      (.inr (.inr ⟨.of .const [.lit 2 .int] (some (.plain 0)) 5, rfl, rfl, .start (by decide)⟩))⟩

end JavaLift.Graph
