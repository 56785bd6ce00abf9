import JavaLift.Proofs.Flow.Build
import JavaLift.Proofs.Flow.Walk

namespace JavaLift.Graph

open JavaLift.Digraph

variable {g : Graph} {kept : Array Bool} {a b : Nat} {insns : List Insn} {tries : List TryRange} {length : Nat}

theorem length_distinct_le (bs : List Nat) : (distinct bs).length ≤ bs.length := by
  suffices ∀ kept : List Nat,
      (bs.foldl (fun kept b => if kept.contains b then kept else kept ++ [b]) kept).length ≤ kept.length + bs.length by
    simpa [distinct] using this []
  induction bs with
  | nil => exact fun kept => Nat.le_refl _
  | cons b bs ih =>
      intro kept
      rw [List.foldl_cons, List.length_cons]
      refine (ih _).trans ?_
      split
      · omega
      · rw [List.length_append, List.length_singleton]
        omega

theorem distinct_ne_nil {bs : List Nat} (h : bs ≠ []) : distinct bs ≠ [] := by
  obtain ⟨b, hb⟩ := List.exists_mem_of_ne_nil bs h
  exact List.ne_nil_of_mem (mem_distinct.mpr hb)

theorem blockAt?_eq_some {offset : Nat} : g.blockAt? offset = some b ↔
    b < g.size ∧ (g.block b).start = offset ∧ ∀ c < b, (g.block c).start ≠ offset := by
  have hblock {c : Nat} (hc : c < g.blocks.size) : g.block c = g.blocks[c] := by simp [block, hc]
  unfold blockAt?
  rw [Array.findIdx?_eq_some_iff_getElem]
  constructor
  · rintro ⟨hb, hstart, hfirst⟩
    refine ⟨hb, by simpa [hblock hb] using hstart, fun c hc => ?_⟩
    simpa [hblock (hc.trans hb)] using hfirst c hc
  · rintro ⟨hb, hstart, hfirst⟩
    refine ⟨hb, by simpa [hblock hb] using hstart, fun c hc => ?_⟩
    simpa [hblock (hc.trans hb)] using hfirst c hc

/-- Leaving blocks out does not change which block is found at an offset, if that one is kept. -/
theorem blockAt?_restrict {offset : Nat} (h : g.blockAt? offset = some b) (hb : has kept b = true) :
    (g.restrict kept).blockAt? offset = some (renumber kept b) := by
  obtain ⟨hlt, hstart, hfirst⟩ := blockAt?_eq_some.mp h
  refine blockAt?_eq_some.mpr ⟨renumber_lt_size hb hlt, ?_, fun k hk => ?_⟩
  · rw [block_restrict hb hlt]
    exact hstart
  · obtain ⟨c, hc, hkept, rfl⟩ := exists_kept (hk.trans (renumber_lt_size hb hlt))
    rw [block_restrict hkept hc]
    exact hfirst c (lt_of_renumber_lt hb hk)

theorem exists_blockAt? {offset : Nat} (h : (g.restrict kept).blockAt? offset = some a) :
    ∃ b, g.blockAt? offset = some b := by
  obtain ⟨hlt, hstart, -⟩ := blockAt?_eq_some.mp h
  obtain ⟨b, hb, hkept, rfl⟩ := exists_kept hlt
  rw [block_restrict hkept hb] at hstart
  have hex : ∃ b, b < g.size ∧ (g.block b).start = offset := ⟨b, hb, hstart⟩
  classical
  refine ⟨Nat.find hex, blockAt?_eq_some.mpr ⟨(Nat.find_spec hex).1, (Nat.find_spec hex).2, fun c hc hstart => ?_⟩⟩
  exact Nat.find_min hex hc ⟨hc.trans (Nat.find_spec hex).1, hstart⟩

structure Onward (g : Graph) (b : Nat) : Prop where
  leads : ¬ (g.block b).isExit = true → g.succs b ≠ []
  branch : (g.block b).endsInIf = true → (g.succs b).length ≤ 2
  table : ∀ n, ∀ e ∈ g.entryOf b n, e.1 ∈ g.succs b

theorem Onward.restrict (hkept : ∀ b n, has kept b = true → n ∈ g.exits b → has kept n = true)
    (hb : has kept b = true) (hlt : b < g.size) (h : g.Onward b) : (g.restrict kept).Onward (renumber kept b) := by
  have hnext {n : Nat} (hn : n ∈ g.succs b) : has kept n = true := hkept b n hb (List.mem_append_left _ hn)
  have hblock := block_restrict (g := g) hb hlt
  refine ⟨fun hexit => ?_, fun hif => ?_, fun n e he => ?_⟩
  · obtain ⟨n, hn⟩ := List.exists_mem_of_ne_nil _ (h.leads fun hexit' => hexit (by rw [hblock]; exact hexit'))
    rw [succs_restrict hb hlt]
    exact List.ne_nil_of_mem ((mem_keep_renumber (hnext hn)).mpr hn)
  · rw [succs_restrict hb hlt, keep, List.length_map]
    refine (List.length_filter_le _ _).trans (h.branch ?_)
    rw [hblock] at hif
    exact hif
  · have hop : ((g.restrict kept).block (renumber kept b)).exitOp? = (g.block b).exitOp? := by
      rw [hblock]
      rfl
    have htable := h.table n
    unfold entryOf at he htable
    rw [hop] at he
    split at he
    · rename_i keys targets default hop'
      simp only [hop'] at htable
      obtain ⟨entry, hentry, he⟩ := Option.bind_eq_some_iff.mp he
      obtain ⟨k, hk, rfl⟩ := Option.map_eq_some_iff.mp he
      obtain ⟨c, hc⟩ := exists_blockAt? hk
      have hmem : c ∈ g.succs b := htable (c, entry.1) (by simp [hentry, hc])
      rw [blockAt?_restrict hc (hnext hmem)] at hk
      cases hk
      rw [succs_restrict hb hlt]
      exact (mem_keep_renumber (hnext hmem)).mpr hmem
    · cases he

theorem terminator?_of_getLast? {block : Block} {last : Insn} (h : block.insns.getLast? = some last) :
    block.terminator? = if last.op.isTerminator then some last else none := by
  rw [Block.terminator?, h]
  cases hterm : last.op.isTerminator <;> simp [hterm]

namespace Edges

variable {starts succs : List Nat} {last : Insn}

theorem ne_nil (h : Edges starts b last succs none) (hexit : ¬ (last.op = .ret ∨ last.op = .throw)) : succs ≠ [] := by
  cases h with
  | goto => exact List.cons_ne_nil _ _
  | jumpIf => simp
  | switchOn _ _ _ falls => exact List.append_ne_nil_of_left_ne_nil (falls rfl) _
  | exit op => exact absurd op hexit
  | next _ falls =>
      obtain ⟨n, hn⟩ := falls rfl
      simp [hn]

theorem length_le_two (h : Edges starts b last succs none) (hif : last.op.isIf = true) : succs.length ≤ 2 := by
  cases h with
  | goto => simp
  | jumpIf => cases fallThrough? starts b <;> simp
  | switchOn op => simp [op, Op.isIf] at hif
  | exit => simp
  | next => cases fallThrough? starts b <;> simp

theorem exists_of_case (h : Edges starts b last succs none) {keys : List Int} {targets : List Nat} {default : Option Nat}
    (hop : last.op = .switchOn keys targets default) {t : Nat} (ht : t ∈ targets) :
    ∃ c ∈ succs, findBlock starts t = .ok c := by
  cases h with
  | switchOn op found =>
      cases hop.symm.trans op
      obtain ⟨c, hc, hfound⟩ := exists_of_mem_of_mapM found ht
      exact ⟨c, List.mem_append_right _ hc, hfound⟩
  | goto op | jumpIf op => cases hop.symm.trans op
  | exit op => rcases op with op | op <;> cases hop.symm.trans op
  | next op => simp [hop, Op.isTerminator] at op

end Edges

section

variable {drafts : List Draft} {regions : List TryRegion}

theorem blockAt?_whole (h : Drafted insns tries length drafts regions) {offset : Nat}
    (hfound : findBlock (startsOf (runs insns tries length)) offset = .ok b) :
    (whole drafts regions).blockAt? offset = some b := by
  have hstart {c : Nat} (hc : c < (whole drafts regions).size) :
      (startsOf (runs insns tries length))[c]? = some ((whole drafts regions).block c).start := by
    rw [size_whole] at hc
    obtain ⟨run, last, succs, hrun, -, -, hblock⟩ := h.block c _ (List.getElem?_eq_getElem hc)
    rw [block_whole (List.getElem?_eq_getElem hc), hblock, startsOf, List.getElem?_map, hrun]
    rfl
  have hlt := findBlock_lt hfound
  rw [h.starts_length] at hlt
  unfold findBlock at hfound
  split at hfound
  · rename_i n hidx
    cases hfound
    obtain ⟨hb, hoffset, hfirst⟩ := List.findIdx?_eq_some_iff_getElem.mp hidx
    have hget {c : Nat} (hc : c < (startsOf (runs insns tries length)).length) (hc' : c < (whole drafts regions).size) :
        (startsOf (runs insns tries length))[c] = ((whole drafts regions).block c).start :=
      Option.some.inj ((List.getElem?_eq_getElem hc).symm.trans (hstart hc'))
    refine blockAt?_eq_some.mpr ⟨hlt, ?_, fun c hc => ?_⟩
    · rw [← hget hb hlt]
      simpa using hoffset
    · rw [← hget (hc.trans hb) (hc.trans hlt)]
      simpa using hfirst c hc
  · cases hfound

theorem Drafted.onward (h : Drafted insns tries length drafts regions) {d : Draft} (hd : drafts[b]? = some d)
    (hcause : d.cause = none) : (whole drafts regions).Onward b := by
  obtain ⟨run, last, succs, -, hlast, hedges, hblock⟩ := h.block b d hd
  rw [hcause] at hedges
  have hsuccs : (whole drafts regions).succs b = distinct succs := by rw [Graph.succs, block_whole hd, hblock]
  have hterm : ((whole drafts regions).block b).terminator? = if last.op.isTerminator then some last else none := by
    refine terminator?_of_getLast? ?_
    rw [block_whole hd, hblock]
    exact hlast
  refine ⟨fun hexit => ?_, fun hif => ?_, fun n e he => ?_⟩
  · rw [hsuccs]
    refine distinct_ne_nil (hedges.ne_nil fun hop => hexit ?_)
    unfold Block.isExit
    rw [hterm]
    rcases hop with hop | hop <;> simp [hop, Op.isTerminator]
  · rw [hsuccs]
    refine (length_distinct_le _).trans (hedges.length_le_two ?_)
    unfold Block.endsInIf at hif
    rw [hterm] at hif
    split at hif
    · exact hif
    · cases hif
  · have hop : ((whole drafts regions).block b).exitOp? = if last.op.isTerminator then some last.op else none := by
      rw [Block.exitOp?, hterm]
      split <;> rfl
    rw [hsuccs]
    unfold entryOf at he
    rw [hop] at he
    split at he
    · rename_i keys targets default hswitch
      have hlastOp : last.op = .switchOn keys targets default := by
        split at hswitch
        · exact Option.some.inj hswitch
        · cases hswitch
      obtain ⟨entry, hentry, he⟩ := Option.bind_eq_some_iff.mp he
      obtain ⟨k, hk, rfl⟩ := Option.map_eq_some_iff.mp he
      have htarget : entry.2 ∈ targets := (List.of_mem_zip (List.mem_of_getElem? hentry)).2
      obtain ⟨c, hc, hfound⟩ := hedges.exists_of_case hlastOp htarget
      rw [blockAt?_whole h hfound] at hk
      cases hk
      exact mem_distinct.mpr hc
    · cases he

end

/-- Where control goes on after the blocks of a graph that has been built. -/
theorem build_onward (h : build insns tries length = .ok g) : ∀ b < g.size, g.Onward b := by
  obtain ⟨hne, -, drafts, regions, hdrafted, hcause, rfl⟩ := build_eq_ok h
  have hclosed := hdrafted.closed hne
  have honward {b : Nat} (hb : b < (whole drafts regions).size) (hkept : has (whole drafts regions).keptOf b = true) :
      (whole drafts regions).Onward b := by
    rw [size_whole] at hb
    exact hdrafted.onward (List.getElem?_eq_getElem hb) (hcause b _ (List.getElem?_eq_getElem hb) hkept)
  intro b hb
  rcases pruned_cases (whole drafts regions) with ⟨h, hall⟩ | h
  · rw [h] at hb ⊢
    exact honward hb (hall b hb)
  · rw [h] at hb ⊢
    obtain ⟨c, hc, hkept, rfl⟩ := exists_kept hb
    exact (honward hc hkept).restrict (fun _ _ => kept_of_exit hclosed) hkept hc

end JavaLift.Graph
