import JavaLift.DefUse.Chain
import JavaLift.Proofs.Flow.Build
import Mathlib
import JavaLift.Proofs.NatSet

namespace JavaLift.Chain

variable {g : Graph} {entry : List Register} {next b pos k : Nat} {i : Insn} {insns : List Insn} {defs : List Def}

def defOf (b pos : Nat) (i : Insn) : Option Def := i.result.map fun r => ⟨r.reg, r.wide, .insn b pos⟩

/-- A row of the table that numbers `defs` from `next` on, as far as the instructions of a block make them. -/
structure Row (next b : Nat) (defs : List Def) (insns : List Insn) (row : Array (Option Nat)) : Prop where
  size : row.size = insns.length
  idle : ∀ (pos : Nat) (i : Insn), insns[pos]? = some i → defOf b pos i = none → row[pos]? = some none
  made : ∀ (pos : Nat) (i : Insn) (d : Def), insns[pos]? = some i → defOf b pos i = some d →
    ∃ k, row[pos]? = some (some (next + k)) ∧ defs[k]? = some d

theorem Row.nil (next b : Nat) : Row next b [] [] #[] where
  size := rfl
  idle := by simp
  made := by simp

theorem Row.within {row : Array (Option Nat)} {before : List Def} (h : Row (next + before.length) b defs insns row)
    (after : List Def) : Row next b (before ++ defs ++ after) insns row := by
  refine ⟨h.size, h.idle, fun pos i d hi hd => ?_⟩
  obtain ⟨k, hrow, hk⟩ := h.made pos i d hi hd
  refine ⟨before.length + k, by rw [hrow, Nat.add_assoc], ?_⟩
  have hlt := (List.getElem?_eq_some_iff.mp hk).1
  rw [List.append_assoc, List.getElem?_append_right (by omega), Nat.add_sub_cancel_left,
    List.getElem?_append_left hlt, hk]

theorem blockDefs_concat (b : Nat) (insns : List Insn) (i : Insn) :
    blockDefs b (insns ++ [i]) = blockDefs b insns ++ (defOf b insns.length i).toList := by
  cases hr : i.result <;> simp [blockDefs, List.zipIdx_append, defOf, hr]

theorem Row.concat {row : Array (Option Nat)} (h : Row next b defs insns row) (i : Insn) :
    Row next b (defs ++ (defOf b insns.length i).toList) (insns ++ [i])
      (row.push ((defOf b insns.length i).map fun _ => next + defs.length)) := by
  -- An instruction of the longer list is one of the shorter list or the last one.
  have hcases {pos : Nat} {j : Insn} (hj : (insns ++ [i])[pos]? = some j) :
      insns[pos]? = some j ∧ pos < row.size ∨ pos = row.size ∧ i = j := by
    rw [h.size]
    rcases Nat.lt_trichotomy pos insns.length with hlt | rfl | hlt
    · rw [List.getElem?_append_left hlt] at hj
      exact .inl ⟨hj, hlt⟩
    · exact .inr ⟨rfl, by simpa using hj⟩
    · rw [List.getElem?_eq_none (by simpa using hlt)] at hj
      cases hj
  refine ⟨by simp [h.size], fun pos j hj hd => ?_, fun pos j d hj hd => ?_⟩
  · rcases hcases hj with ⟨hj, hlt⟩ | ⟨rfl, rfl⟩
    · rw [Array.getElem?_push_lt hlt, ← Array.getElem?_eq_getElem hlt]
      exact h.idle pos j hj hd
    · rw [h.size] at hd
      simp [hd]
  · rcases hcases hj with ⟨hj, hlt⟩ | ⟨rfl, rfl⟩
    · obtain ⟨k, hrow, hk⟩ := h.made pos j d hj hd
      refine ⟨k, ?_, ?_⟩
      · rw [Array.getElem?_push_lt hlt, ← Array.getElem?_eq_getElem hlt, hrow]
      · rw [List.getElem?_append_left (List.getElem?_eq_some_iff.mp hk).1, hk]
    · rw [h.size] at hd
      exact ⟨defs.length, by simp [hd], by simp [hd]⟩

theorem numberRow_concat (next b : Nat) (insns : List Insn) (i : Insn) :
    numberRow next (insns ++ [i]) =
      ((numberRow next insns).1 + (defOf b insns.length i).toList.length,
        (numberRow next insns).2.push ((defOf b insns.length i).map fun _ => (numberRow next insns).1)) := by
  simp only [numberRow, List.foldl_append, List.foldl_cons, List.foldl_nil, defOf]
  cases i.result <;> simp

theorem row_numberRow (next b : Nat) (insns : List Insn) :
    (numberRow next insns).1 = next + (blockDefs b insns).length ∧
      Row next b (blockDefs b insns) insns (numberRow next insns).2 := by
  induction insns using List.reverseRecOn with
  | nil => exact ⟨rfl, .nil next b⟩
  | append_singleton insns i ih =>
      obtain ⟨hnext, hrow⟩ := ih
      rw [numberRow_concat next b, blockDefs_concat, List.length_append]
      refine ⟨by rw [hnext, Nat.add_assoc], ?_⟩
      rw [hnext]
      exact hrow.concat i

def defsOf (blocks : List Block) : List Def := blocks.zipIdx.flatMap fun (block, b) => blockDefs b block.insns

theorem defsOf_concat (blocks : List Block) (block : Block) :
    defsOf (blocks ++ [block]) = defsOf blocks ++ blockDefs blocks.length block.insns := by
  simp [defsOf, List.zipIdx_append]

def addRow (s : Nat × Array (Array (Option Nat))) (block : Block) : Nat × Array (Array (Option Nat)) :=
  ((numberRow s.1 block.insns).1, s.2.push (numberRow s.1 block.insns).2)

theorem rows_foldl (next : Nat) (blocks : List Block) :
    let s := blocks.foldl addRow (next, #[])
    s.1 = next + (defsOf blocks).length ∧ s.2.size = blocks.length ∧
      ∀ (b : Nat) (block : Block), blocks[b]? = some block →
        ∃ row, s.2[b]? = some row ∧ Row next b (defsOf blocks) block.insns row := by
  induction blocks using List.reverseRecOn with
  | nil => exact ⟨rfl, rfl, nofun⟩
  | append_singleton blocks block ih =>
      obtain ⟨hnext, hsize, hrows⟩ := ih
      rw [List.foldl_append, List.foldl_cons, List.foldl_nil, defsOf_concat]
      generalize blocks.foldl addRow (next, #[]) = s at hnext hsize hrows ⊢
      obtain ⟨hlast, hrow⟩ := row_numberRow s.1 blocks.length block.insns
      refine ⟨?_, by simp [addRow, hsize], fun b block' hb => ?_⟩
      · rw [addRow, hlast, hnext, List.length_append, Nat.add_assoc]
      rcases Nat.lt_trichotomy b blocks.length with hlt | rfl | hlt
      · rw [List.getElem?_append_left hlt] at hb
        obtain ⟨row, hget, hold⟩ := hrows b block' hb
        refine ⟨row, ?_, @Row.within _ _ _ _ _ [] hold _⟩
        rw [addRow, Array.getElem?_push_lt (hsize ▸ hlt), ← Array.getElem?_eq_getElem, hget]
      · obtain rfl : block = block' := by simpa using hb
        refine ⟨(numberRow s.1 block.insns).2, by simp [addRow, ← hsize], ?_⟩
        rw [hnext] at hrow ⊢
        have hwithin := hrow.within []
        rwa [List.append_nil] at hwithin
      · rw [List.getElem?_eq_none (by simpa using hlt)] at hb
        cases hb

theorem collectDefs_eq (g : Graph) (entry : List Register) :
    collectDefs g entry = entry.map (fun r => ⟨r.reg, r.wide, .entry⟩) ++ defsOf g.blocks.toList := rfl

theorem numberDefs_eq (g : Graph) (count : Nat) :
    numberDefs g count = (g.blocks.toList.foldl addRow (count, #[])).2 := by
  rw [numberDefs, ← Array.foldl_toList]
  rfl

theorem size_numberDefs (g : Graph) (count : Nat) : (numberDefs g count).size = g.size := by
  rw [numberDefs_eq, (rows_foldl count g.blocks.toList).2.1]
  simp [Graph.size]

theorem exists_row (entry : List Register) (hb : b < g.size) :
    ∃ row, (numberDefs g entry.length)[b]? = some row ∧ Row 0 b (collectDefs g entry) (g.block b).insns row := by
  obtain ⟨row, hget, hrow⟩ := (rows_foldl entry.length g.blocks.toList).2.2 b (g.block b) (by
    simp [Graph.block, show b < g.blocks.size from hb])
  refine ⟨row, by rw [numberDefs_eq, hget], ?_⟩
  have hshift : Row (0 + (entry.map fun r => (⟨r.reg, r.wide, .entry⟩ : Def)).length) b (defsOf g.blocks.toList)
      (g.block b).insns row := by simpa using hrow
  have hwithin := hshift.within []
  rwa [List.append_nil] at hwithin

theorem lt_size_of_insn (hi : (g.block b).insns[pos]? = some i) : b < g.size := by
  by_contra hout
  rw [Graph.block_of_size_le (Nat.le_of_not_lt hout)] at hi
  cases hi

theorem mem_blockDefs {d : Def} :
    d ∈ blockDefs b insns ↔ ∃ (pos : Nat) (i : Insn), insns[pos]? = some i ∧ defOf b pos i = some d := by
  simp only [blockDefs, List.mem_filterMap, Prod.exists, List.mem_zipIdx_iff_getElem?]
  exact exists_comm

theorem mem_defsOf {blocks : List Block} {d : Def} : d ∈ defsOf blocks ↔
    ∃ (b : Nat) (block : Block) (pos : Nat) (i : Insn),
      blocks[b]? = some block ∧ block.insns[pos]? = some i ∧ defOf b pos i = some d := by
  simp only [defsOf, List.mem_flatMap, Prod.exists, List.mem_zipIdx_iff_getElem?, mem_blockDefs]
  constructor
  · rintro ⟨block, b, hb, pos, i, hi, hd⟩
    exact ⟨b, block, pos, i, hb, hi, hd⟩
  · rintro ⟨b, block, pos, i, hb, hi, hd⟩
    exact ⟨block, b, hb, pos, i, hi, hd⟩

/-- The definitions of a method: its parameters, and what its instructions define. -/
theorem mem_collectDefs {d : Def} : d ∈ collectDefs g entry ↔
    (∃ r ∈ entry, d = ⟨r.reg, r.wide, .entry⟩) ∨
      ∃ (b pos : Nat) (i : Insn), (g.block b).insns[pos]? = some i ∧ defOf b pos i = some d := by
  rw [collectDefs_eq, List.mem_append, List.mem_map, mem_defsOf]
  refine or_congr (exists_congr fun r => and_congr_right fun _ => eq_comm) ?_
  constructor
  · rintro ⟨b, block, pos, i, hb, hi, hd⟩
    refine ⟨b, pos, i, ?_, hd⟩
    rwa [Graph.block, ← Array.getElem?_toList, hb]
  · rintro ⟨b, pos, i, hi, hd⟩
    have hlt := lt_size_of_insn hi
    exact ⟨b, g.block b, pos, i, by simp [Graph.block, show b < g.blocks.size from hlt], hi, hd⟩

theorem defOf_site {d : Def} (h : defOf b pos i = some d) : d.site = .insn b pos := by
  obtain ⟨r, -, rfl⟩ := Option.map_eq_some_iff.mp h
  rfl

theorem pairwise_blockDefs (b : Nat) (insns : List Insn) :
    (blockDefs b insns).Pairwise fun d d' => d.site ≠ d'.site := by
  induction insns using List.reverseRecOn with
  | nil => exact .nil
  | append_singleton insns i ih =>
      rw [blockDefs_concat, List.pairwise_append]
      refine ⟨ih, by cases defOf b insns.length i <;> simp, fun d hd d' hd' he => ?_⟩
      obtain ⟨pos, j, hj, hjd⟩ := mem_blockDefs.mp hd
      rw [Option.mem_toList] at hd'
      rw [defOf_site hjd, defOf_site hd'] at he
      cases he
      exact absurd (List.getElem?_eq_some_iff.mp hj).1 (Nat.lt_irrefl _)

theorem pairwise_defsOf (blocks : List Block) : (defsOf blocks).Pairwise fun d d' => d.site ≠ d'.site := by
  induction blocks using List.reverseRecOn with
  | nil => exact .nil
  | append_singleton blocks block ih =>
      rw [defsOf_concat, List.pairwise_append]
      refine ⟨ih, pairwise_blockDefs _ _, fun d hd d' hd' he => ?_⟩
      obtain ⟨b, block, pos, i, hb, -, hid⟩ := mem_defsOf.mp hd
      obtain ⟨pos', i', -, hid'⟩ := mem_blockDefs.mp hd'
      rw [defOf_site hid, defOf_site hid'] at he
      cases he
      exact absurd (List.getElem?_eq_some_iff.mp hb).1 (Nat.lt_irrefl _)

theorem eq_of_site {j : Nat} {d d' : Def} (hd : (collectDefs g entry)[k]? = some d)
    (hd' : (collectDefs g entry)[j]? = some d') (hsite : d.site = .insn b pos) (hsite' : d'.site = .insn b pos) :
    k = j := by
  have hpairwise : (collectDefs g entry).Pairwise fun d d' => d'.site = .entry ∨ d.site ≠ d'.site := by
    rw [collectDefs_eq, List.pairwise_append]
    refine ⟨?_, (pairwise_defsOf _).imp .inr, fun d hd d' hd' => ?_⟩
    · exact List.pairwise_map.mpr (List.pairwise_of_forall fun _ _ => .inl rfl)
    · obtain ⟨r, -, rfl⟩ := List.mem_map.mp hd
      obtain ⟨b, block, pos, i, -, -, hid⟩ := mem_defsOf.mp hd'
      exact .inr (by simp [defOf_site hid])
  have hlt {m n : Nat} {x y : Def} (hx : (collectDefs g entry)[m]? = some x)
      (hy : (collectDefs g entry)[n]? = some y) (hxsite : x.site = .insn b pos) (hysite : y.site = .insn b pos) :
      ¬ m < n := by
    intro hmn
    obtain ⟨hm, rfl⟩ := List.getElem?_eq_some_iff.mp hx
    obtain ⟨hn, rfl⟩ := List.getElem?_eq_some_iff.mp hy
    have hdiffer := List.pairwise_iff_getElem.mp hpairwise m n hm hn hmn
    simp [hxsite, hysite] at hdiffer
  have hle := hlt hd hd' hsite hsite'
  have hge := hlt hd' hd hsite' hsite
  omega

theorem same_of_site {j : Nat} {d d' : Def} (hd : (collectDefs g entry)[k]? = some d)
    (hd' : (collectDefs g entry)[j]? = some d') (hsite : d.site = .insn b pos) (hsite' : d'.site = .insn b pos) :
    k = j ∧ d = d' := by
  obtain rfl := eq_of_site hd hd' hsite hsite'
  exact ⟨rfl, Option.some.inj (hd.symm.trans hd')⟩

theorem eq_iff_site {n : Nat} {d x : Def} (hx : (collectDefs g entry)[n]? = some x)
    (hd : (collectDefs g entry)[k]? = some d) (hmade : defOf b pos i = some d) : n = k ↔ x.site = .insn b pos := by
  constructor
  · rintro rfl
    rw [hx] at hd
    cases hd
    exact defOf_site hmade
  · exact fun hsite => eq_of_site hx hd hsite (defOf_site hmade)

theorem site_ne_of_idle {n : Nat} {x : Def} (hx : (collectDefs g entry)[n]? = some x)
    (hi : (g.block b).insns[pos]? = some i) (hnone : defOf b pos i = none) : x.site ≠ .insn b pos := by
  intro hsite
  rcases mem_collectDefs.mp (List.mem_of_getElem? hx) with ⟨r, -, rfl⟩ | ⟨b', pos', j, hj, hxj⟩
  · cases hsite
  · rw [defOf_site hxj] at hsite
    cases hsite
    rw [hi] at hj
    cases hj
    rw [hnone] at hxj
    cases hxj

theorem lt_length_iff_site {x : Def} (hx : (collectDefs g entry)[k]? = some x) :
    k < entry.length ↔ x.site = .entry := by
  rw [collectDefs_eq] at hx
  constructor
  · intro hlt
    rw [List.getElem?_append_left (by simpa using hlt), List.getElem?_map, Option.map_eq_some_iff] at hx
    obtain ⟨r, -, rfl⟩ := hx
    rfl
  · intro hsite
    by_contra hge
    rw [List.getElem?_append_right (by simpa using hge)] at hx
    obtain ⟨b, block, pos, i, -, -, hxi⟩ := mem_defsOf.mp (List.mem_of_getElem? hx)
    rw [defOf_site hxi] at hsite
    cases hsite

theorem getElem?_defs (g : Graph) (entry : List Register) (d : Nat) :
    (build g entry).defs[d]? = (collectDefs g entry)[d]? := by simp [build]

theorem defTable_build (g : Graph) (entry : List Register) :
    (build g entry).defTable = numberDefs g entry.length := rfl

/-- The table has the number of a definition exactly at the place where it is made. -/
theorem defAt?_eq_some {d : Nat} : (build g entry).defAt? b pos = some d ↔
    ∃ x, (build g entry).defs[d]? = some x ∧ x.site = .insn b pos := by
  simp only [defAt?, Option.bind_eq_bind, Option.bind_eq_some_iff, getElem?_defs, defTable_build]
  constructor
  · rintro ⟨row, hget, _, hcell, rfl⟩
    have hb : b < g.size := size_numberDefs g entry.length ▸ (Array.getElem?_eq_some_iff.mp hget).1
    obtain ⟨row', hget', hrow⟩ := exists_row entry hb
    obtain rfl : row = row' := Option.some.inj (hget.symm.trans hget')
    obtain ⟨i, hi⟩ : ∃ i, (g.block b).insns[pos]? = some i :=
      ⟨_, List.getElem?_eq_getElem (hrow.size ▸ (Array.getElem?_eq_some_iff.mp hcell).1)⟩
    cases hx : defOf b pos i with
    | none =>
        rw [hrow.idle pos i hi hx] at hcell
        cases hcell
    | some x =>
        obtain ⟨k, hk, hkx⟩ := hrow.made pos i x hi hx
        rw [hk, Nat.zero_add] at hcell
        cases hcell
        exact ⟨x, hkx, defOf_site hx⟩
  · rintro ⟨x, hx, hsite⟩
    rcases mem_collectDefs.mp (List.mem_of_getElem? hx) with ⟨r, -, rfl⟩ | ⟨b', pos', i, hi, hxi⟩
    · cases hsite
    · rw [defOf_site hxi] at hsite
      cases hsite
      obtain ⟨row, hget, hrow⟩ := exists_row entry (lt_size_of_insn hi)
      obtain ⟨k, hk, hkx⟩ := hrow.made pos i x hi hxi
      obtain rfl := eq_of_site hkx hx (defOf_site hxi) (defOf_site hxi)
      exact ⟨row, hget, _, hk, by rw [Nat.zero_add]⟩

end JavaLift.Chain
