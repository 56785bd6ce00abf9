import JavaLift.Proofs.Flow.Bounds

namespace JavaLift.Graph

variable {insns : List Insn} {tries : List TryRange} {length : Nat} {i j : Insn} {k n t b : Nat}

def firstAt (insns : List Insn) (t : Nat) : Option Nat := insns.findIdx? fun i => i.offset == t

theorem firstAt_eq_some : firstAt insns t = some k ↔
    ∃ i, insns[k]? = some i ∧ i.offset = t ∧ ∀ (m : Nat) (j : Insn), m < k → insns[m]? = some j → j.offset ≠ t := by
  rw [firstAt, List.findIdx?_eq_some_iff_getElem]
  constructor
  · rintro ⟨hk, hoffset, hfirst⟩
    refine ⟨insns[k], List.getElem?_eq_getElem hk, by simpa using hoffset, fun m j hm hj => ?_⟩
    obtain ⟨hlt, rfl⟩ := List.getElem?_eq_some_iff.mp hj
    simpa using hfirst m hm
  · rintro ⟨i, hi, hoffset, hfirst⟩
    obtain ⟨hk, rfl⟩ := List.getElem?_eq_some_iff.mp hi
    refine ⟨hk, by simpa using hoffset, fun m hm => ?_⟩
    simpa using hfirst m _ hm (List.getElem?_eq_getElem (hm.trans hk))

theorem exists_firstAt (h : t ∈ insns.map (·.offset)) : ∃ k, firstAt insns t = some k := by
  obtain ⟨i, hi, rfl⟩ := List.mem_map.mp h
  rw [← Option.isSome_iff_exists, firstAt, List.findIdx?_isSome, List.any_eq_true]
  exact ⟨i, hi, by simp⟩

def runStart (runs : List (List Insn)) (b : Nat) : Nat := (runs.take b).flatten.length

@[simp] theorem runStart_zero (runs : List (List Insn)) : runStart runs 0 = 0 := by simp [runStart]

@[simp] theorem runStart_cons (run : List Insn) (runs : List (List Insn)) (b : Nat) :
    runStart (run :: runs) (b + 1) = run.length + runStart runs b := by
  simp [runStart]

theorem runStart_succ {runs : List (List Insn)} {run : List Insn} (h : runs[b]? = some run) :
    runStart runs (b + 1) = runStart runs b + run.length := by
  simp [runStart, List.take_add_one, h]

theorem runStart_mono (runs : List (List Insn)) {c : Nat} (h : b ≤ c) : runStart runs b ≤ runStart runs c :=
  (((List.take_prefix_take_left h (l := runs)).sublist).flatten).length_le

theorem getElem?_run {runs : List (List Insn)} {run : List Insn} (h : runs[b]? = some run) (hk : k < run.length) :
    runs.flatten[runStart runs b + k]? = run[k]? := by
  obtain ⟨hb, rfl⟩ := List.getElem?_eq_some_iff.mp h
  have hsplit : runs.flatten = (runs.take b).flatten ++ (runs[b] ++ (runs.drop (b + 1)).flatten) := by
    rw [← List.flatten_cons, ← List.flatten_append, List.getElem_cons_drop, List.take_append_drop]
  rw [hsplit, runStart, List.getElem?_append_right (Nat.le_add_right _ _), Nat.add_sub_cancel_left,
    List.getElem?_append_left hk]

theorem exists_run (runs : List (List Insn)) (h : n < runs.flatten.length) :
    ∃ (b : Nat) (run : List Insn) (k : Nat), runs[b]? = some run ∧ k < run.length ∧ n = runStart runs b + k := by
  induction runs generalizing n with
  | nil => cases h
  | cons run runs ih =>
      by_cases hn : n < run.length
      · exact ⟨0, run, n, rfl, hn, by simp⟩
      · rw [List.flatten_cons, List.length_append] at h
        obtain ⟨b, run', k, hrun, hk, heq⟩ := ih (n := n - run.length) (by omega)
        exact ⟨b + 1, run', k, hrun, hk, by rw [runStart_cons]; omega⟩

/-- What the marks are: an instruction is marked if it is the first of a leading offset. -/
theorem getElem?_markStarts (leading seen : List Nat) (insns : List Insn) (k : Nat) :
    ∀ flag i, (markStarts leading seen insns)[k]? = some (flag, i) ↔ insns[k]? = some i ∧
      (flag = true ↔ i.offset ∈ leading ∧ i.offset ∉ seen ∧
        ∀ (m : Nat) (j : Insn), m < k → insns[m]? = some j → j.offset ≠ i.offset) := by
  induction insns generalizing seen k with
  | nil => simp [markStarts]
  | cons i rest ih =>
      intro flag j
      rw [markStarts]
      cases k with
      | zero =>
          simp only [List.getElem?_cons_zero, Option.some.injEq, Prod.mk.injEq, Nat.not_lt_zero, false_implies,
            implies_true, and_true]
          constructor
          · rintro ⟨rfl, rfl⟩
            simp
          · rintro ⟨rfl, h⟩
            refine ⟨?_, rfl⟩
            rw [Bool.eq_iff_iff, h]
            simp
      | succ k =>
          rw [List.getElem?_cons_succ, List.getElem?_cons_succ, ih]
          refine and_congr_right fun hj => iff_congr Iff.rfl (and_congr_right fun _ => ?_)
          rw [List.mem_cons, not_or]
          constructor
          · rintro ⟨⟨hne, hseen⟩, hfirst⟩
            refine ⟨hseen, fun m l hm hl => ?_⟩
            cases m with
            | zero =>
                cases hl
                exact fun he => hne he.symm
            | succ m => exact hfirst m l (Nat.lt_of_succ_lt_succ hm) hl
          · rintro ⟨hseen, hfirst⟩
            refine ⟨⟨fun he => hfirst 0 i (Nat.succ_pos k) rfl he.symm, hseen⟩, fun m l hm hl => ?_⟩
            exact hfirst (m + 1) l (Nat.succ_lt_succ hm) hl

structure Cut (marked : List (Bool × Insn)) (runs : List (List Insn)) : Prop where
  flatten : runs.flatten = marked.map Prod.snd
  inside : ∀ (b : Nat) (run : List Insn) (k : Nat), runs[b]? = some run → k + 1 < run.length →
    ∃ i, marked[runStart runs b + (k + 1)]? = some (false, i)
  front : ∀ b, b + 1 < runs.length → ∃ i, marked[runStart runs (b + 1)]? = some (true, i)

theorem Cut.apart {m : Bool × Insn} {j : Insn} {rest : List (Bool × Insn)} {runs : List (List Insn)}
    (h : Cut ((true, j) :: rest) runs) : Cut (m :: (true, j) :: rest) ([m.2] :: runs) := by
  have hstart (b : Nat) : runStart ([m.2] :: runs) (b + 1) = runStart runs b + 1 := by
    rw [runStart_cons, List.length_singleton, Nat.add_comm]
  refine ⟨by simp [h.flatten], fun b run k hb hk => ?_, fun b hb => ?_⟩
  · cases b with
    | zero =>
        cases hb
        simp at hk
    | succ b =>
        obtain ⟨i, hi⟩ := h.inside b run k hb hk
        exact ⟨i, by rw [hstart, Nat.add_right_comm, List.getElem?_cons_succ, hi]⟩
  · cases b with
    | zero => exact ⟨j, by simp⟩
    | succ b =>
        obtain ⟨i, hi⟩ := h.front b (by simpa using hb)
        exact ⟨i, by rw [hstart, List.getElem?_cons_succ, hi]⟩

theorem Cut.joined {m : Bool × Insn} {j : Insn} {rest : List (Bool × Insn)} {run : List Insn}
    {runs : List (List Insn)} (h : Cut ((false, j) :: rest) (run :: runs)) :
    Cut (m :: (false, j) :: rest) ((m.2 :: run) :: runs) := by
  have hstart (b : Nat) : runStart ((m.2 :: run) :: runs) (b + 1) = runStart (run :: runs) (b + 1) + 1 := by
    rw [runStart_cons, runStart_cons, List.length_cons]
    omega
  refine ⟨?_, fun b run' k hb hk => ?_, fun b hb => ?_⟩
  · rw [List.flatten_cons, List.cons_append, ← List.flatten_cons, h.flatten]
    rfl
  · cases b with
    | zero =>
        cases hb
        rw [runStart_zero, Nat.zero_add, List.getElem?_cons_succ]
        cases k with
        | zero => exact ⟨j, rfl⟩
        | succ k => simpa using h.inside 0 run k rfl (by simpa using hk)
    | succ b =>
        obtain ⟨i, hi⟩ := h.inside (b + 1) run' k hb hk
        exact ⟨i, by rw [hstart, Nat.add_right_comm, List.getElem?_cons_succ, hi]⟩
  · obtain ⟨i, hi⟩ := h.front b hb
    exact ⟨i, by rw [hstart, List.getElem?_cons_succ, hi]⟩

theorem cut_spec (marked : List (Bool × Insn)) : Cut marked (cut marked) := by
  induction marked with
  | nil => exact ⟨rfl, fun b run k h => by simp [cut] at h, fun b h => by simp [cut] at h⟩
  | cons m rest ih =>
      cases rest with
      | nil =>
          refine ⟨rfl, fun b run k h hk => ?_, fun b h => by simp [cut] at h⟩
          cases b with
          | zero =>
              cases h
              simp at hk
          | succ b => simp [cut] at h
      | cons m' rest =>
          obtain ⟨flag, j⟩ := m'
          cases flag with
          | true =>
              have hcut : cut (m :: (true, j) :: rest) = [m.2] :: cut ((true, j) :: rest) := by
                rw [cut]
                simp
              rw [hcut]
              exact ih.apart
          | false =>
              obtain ⟨run, runs, hrest⟩ := List.exists_cons_of_ne_nil (cut_ne_nil (List.cons_ne_nil (false, j) rest))
              have hcut : cut (m :: (false, j) :: rest) = (m.2 :: run) :: runs := by
                conv => lhs; unfold cut
                rw [hrest]
              rw [hrest] at ih
              rw [hcut]
              exact ih.joined

theorem map_snd_markStarts (leading seen : List Nat) (insns : List Insn) :
    (markStarts leading seen insns).map Prod.snd = insns := by
  induction insns generalizing seen with
  | nil => rfl
  | cons i rest ih => rw [markStarts, List.map_cons, ih]

theorem flatten_runs (insns : List Insn) (tries : List TryRange) (length : Nat) :
    (runs insns tries length).flatten = insns := by
  rw [runs, (cut_spec _).flatten, map_snd_markStarts]

/-- The index of the first instruction of a block, before any block is left out. -/
def blockStart (insns : List Insn) (tries : List TryRange) (length : Nat) (b : Nat) : Nat :=
  runStart (runs insns tries length) b

section

variable {run : List Insn} (hrun : (runs insns tries length)[b]? = some run)
include hrun

theorem getElem?_block (hk : k < run.length) : insns[blockStart insns tries length b + k]? = run[k]? := by
  have hget := getElem?_run hrun hk
  rwa [flatten_runs] at hget

theorem blockStart_succ : blockStart insns tries length (b + 1) = blockStart insns tries length b + run.length :=
  runStart_succ hrun

theorem length_run_pos : 0 < run.length := List.length_pos_iff.mpr (ne_nil_of_mem_cut (List.mem_of_getElem? hrun))

/-- A block begins with the first instruction of a leading offset. -/
theorem exists_front : ∃ i, insns[blockStart insns tries length b]? = some i ∧ run.head? = some i ∧
    i.offset ∈ leaders insns tries length ∧ firstAt insns i.offset = some (blockStart insns tries length b) := by
  have hhead := getElem?_block hrun (length_run_pos hrun)
  rw [Nat.add_zero, ← List.head?_eq_getElem?] at hhead
  obtain ⟨i, hi⟩ : ∃ i, run.head? = some i :=
    ⟨_, List.head?_eq_some_head (List.length_pos_iff.mp (length_run_pos hrun))⟩
  rw [hi] at hhead
  refine ⟨i, hhead, hi, ?_⟩
  cases b with
  | zero =>
      have hzero : insns[0]? = some i := by simpa [blockStart] using hhead
      refine ⟨?_, firstAt_eq_some.mpr ⟨i, hhead, rfl, fun m j hm => by simp [blockStart] at hm⟩⟩
      rw [← List.head?_eq_getElem?] at hzero
      simp [leaders, hzero]
  | succ b =>
      obtain ⟨i', hmark⟩ := (cut_spec (markStarts (leaders insns tries length) [] insns)).front b
        (List.getElem?_eq_some_iff.mp hrun).1
      obtain ⟨hi', hflag⟩ := (getElem?_markStarts _ _ _ _ _ _).mp hmark
      cases hhead.symm.trans hi'
      obtain ⟨hlead, -, hfirst⟩ := hflag.mp rfl
      exact ⟨hlead, firstAt_eq_some.mpr ⟨i, hhead, rfl, hfirst⟩⟩

/-- No other instruction of a block is the first one of a leading offset. -/
theorem firstAt_ne (hk : k + 1 < run.length) (hlead : t ∈ leaders insns tries length) :
    firstAt insns t ≠ some (blockStart insns tries length b + (k + 1)) := by
  intro hfirst
  obtain ⟨i, hi, rfl, hbefore⟩ := firstAt_eq_some.mp hfirst
  obtain ⟨i', hmark⟩ := (cut_spec (markStarts (leaders insns tries length) [] insns)).inside b run k hrun hk
  obtain ⟨hi', hflag⟩ := (getElem?_markStarts _ _ _ _ _ _).mp hmark
  cases hi.symm.trans hi'
  exact absurd (hflag.mpr ⟨hlead, List.not_mem_nil, hbefore⟩) (by simp)

end

theorem exists_block (tries : List TryRange) (length : Nat) (hn : n < insns.length) :
    ∃ (b : Nat) (run : List Insn) (k : Nat), (runs insns tries length)[b]? = some run ∧ k < run.length ∧
      n = blockStart insns tries length b + k :=
  exists_run _ (by rwa [flatten_runs])

/-- A block starts at the first instruction of a leading offset. -/
theorem exists_blockStart (hlead : t ∈ leaders insns tries length) (hfirst : firstAt insns t = some n) :
    ∃ b < (runs insns tries length).length, blockStart insns tries length b = n := by
  obtain ⟨i, hi, -, -⟩ := firstAt_eq_some.mp hfirst
  obtain ⟨b, run, k, hrun, hk, rfl⟩ := exists_block tries length (List.getElem?_eq_some_iff.mp hi).1
  cases k with
  | zero => exact ⟨b, (List.getElem?_eq_some_iff.mp hrun).1, rfl⟩
  | succ k => exact absurd hfirst (firstAt_ne hrun hk hlead)

theorem blockStart_lt {c : Nat} (h : b < c) (hc : c ≤ (runs insns tries length).length) :
    blockStart insns tries length b < blockStart insns tries length c := by
  have hrun := List.getElem?_eq_getElem (h.trans_le hc)
  have hle := runStart_mono (runs insns tries length) (Nat.succ_le_of_lt h)
  have hpos := length_run_pos hrun
  rw [Nat.succ_eq_add_one, runStart_succ hrun] at hle
  unfold blockStart
  omega

theorem blockStart_inj {c : Nat} (hb : b ≤ (runs insns tries length).length) (hc : c ≤ (runs insns tries length).length)
    (h : blockStart insns tries length b = blockStart insns tries length c) : b = c := by
  rcases Nat.lt_trichotomy b c with hlt | heq | hlt
  · exact absurd h (blockStart_lt hlt hc).ne
  · exact heq
  · exact absurd h (blockStart_lt hlt hb).ne'

theorem blockStart_length (insns : List Insn) (tries : List TryRange) (length : Nat) :
    blockStart insns tries length (runs insns tries length).length = insns.length := by
  rw [blockStart, runStart, List.take_length, flatten_runs]

theorem succ_lt_iff {run : List Insn} (hrun : (runs insns tries length)[b]? = some run) :
    b + 1 < (runs insns tries length).length ↔ blockStart insns tries length b + run.length < insns.length := by
  rw [← blockStart_succ hrun]
  have hb := (List.getElem?_eq_some_iff.mp hrun).1
  constructor
  · intro hlt
    have hstart := blockStart_lt hlt le_rfl
    rwa [blockStart_length] at hstart
  · intro hstart
    by_contra hge
    rw [show b + 1 = (runs insns tries length).length by omega, blockStart_length] at hstart
    exact Nat.lt_irrefl _ hstart

theorem getElem?_startsOf : (startsOf (runs insns tries length))[b]? = some t ↔
    b < (runs insns tries length).length ∧ firstAt insns t = some (blockStart insns tries length b) := by
  rw [startsOf, List.getElem?_map, Option.map_eq_some_iff]
  constructor
  · rintro ⟨run, hrun, rfl⟩
    obtain ⟨i, -, hhead, -, hfirst⟩ := exists_front hrun
    rw [hhead]
    exact ⟨(List.getElem?_eq_some_iff.mp hrun).1, hfirst⟩
  · rintro ⟨hb, hfirst⟩
    have hrun := List.getElem?_eq_getElem hb
    obtain ⟨i, hi, hhead, -, -⟩ := exists_front hrun
    obtain ⟨j, hj, hoffset, -⟩ := firstAt_eq_some.mp hfirst
    cases hi.symm.trans hj
    exact ⟨_, hrun, by rw [hhead]; exact hoffset⟩

/-- The block of an offset is the one that begins with the first instruction there. -/
theorem findBlock_eq_ok : findBlock (startsOf (runs insns tries length)) t = .ok b ↔
    b < (runs insns tries length).length ∧ firstAt insns t = some (blockStart insns tries length b) := by
  rw [← getElem?_startsOf, findBlock]
  constructor
  · intro h
    split at h
    · rename_i hidx
      cases h
      obtain ⟨hb, hoffset, -⟩ := List.findIdx?_eq_some_iff_getElem.mp hidx
      rw [List.getElem?_eq_getElem hb, beq_iff_eq.mp hoffset]
    · cases h
  · intro h
    obtain ⟨c, hc⟩ : ∃ c, (startsOf (runs insns tries length)).idxOf? t = some c := by
      rw [← Option.isSome_iff_exists, List.isSome_idxOf?]
      exact List.mem_of_getElem? h
    obtain ⟨hlt, hoffset, -⟩ := List.findIdx?_eq_some_iff_getElem.mp hc
    have hget : (startsOf (runs insns tries length))[c]? = some t := by
      rw [List.getElem?_eq_getElem hlt, beq_iff_eq.mp hoffset]
    obtain ⟨hb, hfirst⟩ := getElem?_startsOf.mp h
    obtain ⟨hc', hfirst'⟩ := getElem?_startsOf.mp hget
    rw [hfirst, Option.some.injEq] at hfirst'
    rw [hc, blockStart_inj hb.le hc'.le hfirst']

theorem exists_findBlock (hlead : t ∈ leaders insns tries length) (h : t ∈ insns.map (·.offset)) :
    ∃ b, findBlock (startsOf (runs insns tries length)) t = .ok b := by
  obtain ⟨n, hfirst⟩ := exists_firstAt h
  obtain ⟨b, hb, rfl⟩ := exists_blockStart hlead hfirst
  exact ⟨b, findBlock_eq_ok.mpr ⟨hb, hfirst⟩⟩

end JavaLift.Graph
