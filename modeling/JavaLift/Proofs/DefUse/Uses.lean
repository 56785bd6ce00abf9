import JavaLift.Proofs.DefUse.Chain
import JavaLift.Proofs.DefUse.Reaching
import JavaLift.Proofs.Insn.Tree
import JavaLift.Flow.Build

namespace JavaLift.Chain

variable {g : Graph} {entry : List Register} {b pos id k : Nat} {i : Insn} {row : Array (Option Nat)} {env : Env}
  {uses : List Use} {u : Use} {path : ArgPath} {reg : Register}

theorem Env.mem_reaching {reg : Nat} : k ∈ env.reaching reg ↔ (reg, k) ∈ env := by
  simp only [reaching, List.mem_map, List.mem_filter, beq_iff_eq]
  constructor
  · rintro ⟨⟨r, k⟩, ⟨hmem, rfl⟩, rfl⟩
    exact hmem
  · exact fun hmem => ⟨(reg, k), ⟨hmem, rfl⟩, rfl⟩

def Env.Right (g : Graph) (entry : List Register) (b pos : Nat) (env : Env) : Prop :=
  ∀ reg k : Nat, (reg, k) ∈ env ↔ ∃ d, (collectDefs g entry)[k]? = some d ∧ d.reg = reg ∧ g.Carried d b pos

theorem right_startEnv (hb : b < g.size) :
    (startEnv (collectDefs g entry).toArray ((reached g entry).atStart b)).Right g entry b 0 := by
  intro reg k
  simp only [startEnv, List.mem_filterMap, NatSet.mem_toList, contains_atStart hb, Option.map_eq_some_iff,
    List.getElem?_toArray, Prod.mk.injEq]
  constructor
  · rintro ⟨_, ⟨d, hd, hcarried⟩, d', hd', rfl, rfl⟩
    cases hd.symm.trans hd'
    exact ⟨d, hd, rfl, hcarried⟩
  · rintro ⟨d, hd, rfl, hcarried⟩
    exact ⟨k, ⟨d, hd, hcarried⟩, d, hd, rfl, rfl⟩

def after (defs : Array Def) (env : Env) (cell : Option Nat) : Env :=
  match cell with
  | some id => (defs[id]?).elim env (env.define id)
  | none => env

theorem Env.Right.after (h : env.Right g entry b pos) (hrow : Row 0 b (collectDefs g entry) (g.block b).insns row)
    (hi : (g.block b).insns[pos]? = some i) :
    Env.Right g entry b (pos + 1) (after (collectDefs g entry).toArray env (row[pos]?).join) := by
  intro reg k
  simp only [Graph.Carried.succ_iff hi, Insn.overwrites_iff b pos]
  cases hd : defOf b pos i with
  | none =>
      rw [hrow.idle pos i hi hd, Option.join_some, Chain.after, h reg k]
      refine exists_congr fun x => and_congr_right fun hx => and_congr_right fun _ => ?_
      simp [site_ne_of_idle hx hi hd]
  | some d =>
      obtain ⟨n, hn, hnd⟩ := hrow.made pos i d hi hd
      rw [hn, Nat.zero_add, Option.join_some, Chain.after, List.getElem?_toArray, hnd, Option.elim_some, Env.define,
        List.mem_append, List.mem_filter, h reg k, List.mem_singleton, Prod.mk.injEq]
      simp only [Option.some.injEq, exists_eq_left', Bool.not_eq_true', ← Bool.not_eq_true, List.contains_iff_mem]
      constructor
      · rintro (⟨⟨x, hx, rfl, hcarried⟩, hkeeps⟩ | ⟨rfl, rfl⟩)
        · exact ⟨x, hx, rfl, .inl ⟨hcarried, hkeeps⟩⟩
        · exact ⟨d, hnd, rfl, .inr (defOf_site hd)⟩
      · rintro ⟨x, hx, rfl, ⟨hcarried, hkeeps⟩ | hsite⟩
        · exact .inl ⟨⟨x, hx, rfl, hcarried⟩, hkeeps⟩
        · obtain ⟨rfl, rfl⟩ := same_of_site hx hnd hsite (defOf_site hd)
          exact .inr ⟨rfl, rfl⟩

/-- A use of a register that an instruction reads, with exactly the definitions of the register that are carried to
the instruction. -/
structure Exact (g : Graph) (entry : List Register) (u : Use) : Prop where
  read : ∃ i r, (g.block u.block).insns[u.pos]? = some i ∧ (u.path, r) ∈ i.reads ∧ r.reg = u.reg
  reaching : ∀ k, k ∈ u.reaching ↔
    ∃ d, (collectDefs g entry)[k]? = some d ∧ d.reg = u.reg ∧ g.Carried d u.block u.pos

theorem blockUses_spec (hrow : Row 0 b (collectDefs g entry) (g.block b).insns row) (insns : List Insn)
    (hdrop : (g.block b).insns.drop pos = insns) (hright : env.Right g entry b pos) :
    (∀ u ∈ blockUses (collectDefs g entry).toArray row b env pos insns, u.block = b ∧ Exact g entry u) ∧
      ∀ (n : Nat) (i : Insn) (path : ArgPath) (r : Register), insns[n]? = some i → (path, r) ∈ i.reads →
        ∃ u ∈ blockUses (collectDefs g entry).toArray row b env pos insns,
          u.block = b ∧ u.pos = pos + n ∧ u.path = path := by
  induction insns generalizing pos env with
  | nil => exact ⟨fun u hu => absurd hu List.not_mem_nil, by simp⟩
  | cons i rest ih =>
      have hi : (g.block b).insns[pos]? = some i := by
        rw [← List.head?_drop, hdrop, List.head?_cons]
      have hrest : (g.block b).insns.drop (pos + 1) = rest := by
        rw [← List.tail_drop, hdrop, List.tail_cons]
      obtain ⟨hexact, hread⟩ := ih hrest (hright.after hrow hi)
      have heq : blockUses (collectDefs g entry).toArray row b env pos (i :: rest) =
          i.reads.map (fun x => Use.mk x.2.reg b pos x.1 (env.reaching x.2.reg)) ++
            blockUses (collectDefs g entry).toArray row b
              (after (collectDefs g entry).toArray env (row[pos]?).join) (pos + 1) rest := rfl
      rw [heq]
      constructor
      · intro u hu
        rcases List.mem_append.mp hu with hu | hu
        · obtain ⟨⟨path, r⟩, hr, rfl⟩ := List.mem_map.mp hu
          refine ⟨rfl, ⟨i, r, hi, hr, rfl⟩, fun k => ?_⟩
          rw [Env.mem_reaching]
          exact hright r.reg k
        · exact hexact u hu
      · intro n j path r hj hr
        cases n with
        | zero =>
            cases hj
            exact ⟨_, List.mem_append_left _ (List.mem_map.mpr ⟨(path, r), hr, rfl⟩), rfl, rfl, rfl⟩
        | succ n =>
            obtain ⟨u, hu, hblock, hpos, hpath⟩ := hread n j path r hj hr
            exact ⟨u, List.mem_append_right _ hu, hblock, by rw [hpos]; omega, hpath⟩

theorem mem_uses {u : Use} : u ∈ (build g entry).uses ↔ ∃ b < g.size, ∃ row,
    (numberDefs g entry.length)[b]? = some row ∧
      u ∈ blockUses (collectDefs g entry).toArray row b
        (startEnv (collectDefs g entry).toArray ((reached g entry).atStart b)) 0 (g.block b).insns := by
  simp only [build, List.mem_toArray, List.mem_flatMap, Prod.exists, List.mem_zipIdx_iff_getElem?,
    Array.getElem?_toList]
  constructor
  · rintro ⟨block, b, hb, hu⟩
    have hlt : b < g.size := (Array.getElem?_eq_some_iff.mp hb).1
    obtain ⟨row, hget, -⟩ := exists_row entry hlt
    refine ⟨b, hlt, row, hget, ?_⟩
    rwa [hget, Option.getD_some, show block = g.block b by simp [Graph.block, hb]] at hu
  · rintro ⟨b, hlt, row, hget, hu⟩
    refine ⟨g.block b, b, by simp [Graph.block, show b < g.blocks.size from hlt], ?_⟩
    rwa [hget, Option.getD_some]

theorem exact_of_mem (hu : u ∈ (build g entry).uses) : Exact g entry u := by
  obtain ⟨b, hlt, row, hget, hu⟩ := mem_uses.mp hu
  obtain ⟨row', hget', hrow⟩ := exists_row entry hlt
  obtain rfl : row = row' := Option.some.inj (hget.symm.trans hget')
  exact ((blockUses_spec hrow _ (List.drop_zero ..) (right_startEnv hlt)).1 u hu).2

theorem exists_use (entry : List Register) (hi : (g.block b).insns[pos]? = some i) (hr : (path, reg) ∈ i.reads) :
    ∃ u ∈ (build g entry).uses, u.block = b ∧ u.pos = pos ∧ u.path = path := by
  have hlt := lt_size_of_insn hi
  obtain ⟨row, hget, hrow⟩ := exists_row entry hlt
  obtain ⟨u, hu, hblock, hpos, hpath⟩ :=
    (blockUses_spec hrow _ (List.drop_zero ..) (right_startEnv hlt)).2 pos i path reg hi hr
  exact ⟨u, mem_uses.mpr ⟨b, hlt, row, hget, hu⟩, hblock, by rw [hpos, Nat.zero_add], hpath⟩

theorem mem_modify {table : Array (Array (List Nat))} {cell : List Nat} {row : Array (List Nat)} (b' pos' id' : Nat)
    (hrow : table[b]? = some row) (hcell : row[pos]? = some cell) :
    ∃ (row' : Array (List Nat)) (cell' : List Nat),
      (table.modify b' fun row => row.modify pos' (· ++ [id']))[b]? = some row' ∧ row'[pos]? = some cell' ∧
        cell ⊆ cell' ∧ (b' = b → pos' = pos → id' ∈ cell') := by
  rw [Array.getElem?_modify]
  by_cases hb : b' = b
  · rw [if_pos hb, hrow, Option.map_some]
    by_cases hpos : pos' = pos
    · refine ⟨_, cell ++ [id'], rfl, by simp [Array.getElem?_modify, hpos, hcell], ?_, ?_⟩
      · exact List.subset_append_left _ _
      · intro _ _
        simp
    · exact ⟨_, cell, rfl, by simp [Array.getElem?_modify, hpos, hcell], List.Subset.refl _, fun _ h => absurd h hpos⟩
  · rw [if_neg hb]
    exact ⟨row, cell, hrow, hcell, List.Subset.refl _, fun h _ => absurd h hb⟩

theorem mem_tableOfUses (hu : uses[id]? = some u) (hi : (g.block u.block).insns[u.pos]? = some i) :
    ∃ (row : Array (List Nat)) (cell : List Nat),
      (tableOfUses g uses)[u.block]? = some row ∧ row[u.pos]? = some cell ∧ id ∈ cell := by
  have hlt := lt_size_of_insn hi
  have hpos := (List.getElem?_eq_some_iff.mp hi).1
  suffices ∀ (l : List (Use × Nat)) (table : Array (Array (List Nat))) (row : Array (List Nat)) (cell : List Nat),
      table[u.block]? = some row → row[u.pos]? = some cell → (u, id) ∈ l ∨ id ∈ cell →
        ∃ (row' : Array (List Nat)) (cell' : List Nat),
          (l.foldl (fun (table : Array (Array (List Nat))) (x : Use × Nat) =>
            table.modify x.1.block fun row => row.modify x.1.pos (· ++ [x.2])) table)[u.block]? = some row' ∧
              row'[u.pos]? = some cell' ∧ id ∈ cell' from
    this _ _ (Array.replicate (g.block u.block).insns.length []) []
      (by simp [Graph.block, show u.block < g.blocks.size from hlt]) (by simp [hpos])
      (.inl (List.mem_zipIdx_iff_getElem?.mpr hu))
  intro l
  induction l with
  | nil => exact fun table row cell hrow hcell h => ⟨row, cell, hrow, hcell, h.resolve_left List.not_mem_nil⟩
  | cons x l ih =>
      intro table row cell hrow hcell h
      obtain ⟨row', cell', hrow', hcell', hsub, hnew⟩ := mem_modify x.1.block x.1.pos x.2 hrow hcell
      refine ih _ row' cell' hrow' hcell' ?_
      rcases h with h | h
      · rcases List.mem_cons.mp h with rfl | h
        · exact .inr (hnew rfl rfl)
        · exact .inl h
      · exact .inr (hsub h)

theorem useTable_build (g : Graph) (entry : List Register) :
    (build g entry).useTable = tableOfUses g (build g entry).uses.toList := rfl

theorem exists_useAt? (entry : List Register) (hi : (g.block b).insns[pos]? = some i) (hr : (path, reg) ∈ i.reads) :
    ∃ id, (build g entry).useAt? b pos path = some id := by
  obtain ⟨u, hu, rfl, rfl, rfl⟩ := exists_use entry hi hr
  obtain ⟨id, hid⟩ := List.mem_iff_getElem?.mp (Array.mem_toList_iff.mpr hu)
  obtain ⟨row, cell, hrow, hcell, hmem⟩ := mem_tableOfUses hid hi
  have hfound : (cell.find? fun id => (build g entry).uses[id]?.any fun v => v.path == u.path).isSome := by
    rw [List.find?_isSome]
    rw [Array.getElem?_toList] at hid
    exact ⟨id, hmem, by simp [hid]⟩
  obtain ⟨first, hfirst⟩ := Option.isSome_iff_exists.mp hfound
  refine ⟨first, ?_⟩
  simp only [useAt?, Option.bind_eq_bind, Option.bind_eq_some_iff, useTable_build]
  exact ⟨row, hrow, cell, hcell, hfirst⟩

theorem Exact.reg_eq (h : Exact g entry u) (hi : (g.block u.block).insns[u.pos]? = some i)
    (hr : (u.path, reg) ∈ i.reads) : u.reg = reg.reg := by
  obtain ⟨j, r, hj, hr', hreg⟩ := h.read
  cases hi.symm.trans hj
  obtain rfl : reg = r := congrArg Prod.snd (List.inj_on_of_nodup_map i.nodup_reads hr hr' rfl)
  exact hreg.symm

/-- Every read has a use, with exactly the definitions of the register that are carried to it. -/
theorem exists_exact_use (entry : List Register) (hi : (g.block b).insns[pos]? = some i) (hr : (path, reg) ∈ i.reads) :
    ∃ id u, (build g entry).useAt? b pos path = some id ∧ (build g entry).uses[id]? = some u ∧ u.reg = reg.reg ∧
      ∀ k, k ∈ u.reaching ↔ ∃ d, (collectDefs g entry)[k]? = some d ∧ d.reg = reg.reg ∧ g.Carried d b pos := by
  obtain ⟨id, hid⟩ := exists_useAt? entry hi hr
  obtain ⟨u, hu, rfl, rfl, rfl⟩ := useAt?_build hid
  have hexact := exact_of_mem (Array.mem_of_getElem? hu)
  have hreg := hexact.reg_eq hi hr
  refine ⟨id, u, hid, hu, hreg, fun k => ?_⟩
  rw [hexact.reaching k, hreg]

/-- The definitions of a method are its parameters and the results of its instructions, and the rounds that find the
ones that reach the blocks come to rest. Every use is of a register that an instruction reads, and every read has a
use. The definitions of a use are exactly those of its register that are carried to it. -/
theorem reaching_exact (g : Graph) (entry : List Register) :
    (equations g entry).round (reached g entry) = (reached g entry, false) ∧
    (∀ d, d ∈ (build g entry).defs ↔ (∃ r ∈ entry, d = ⟨r.reg, r.wide, .entry⟩) ∨
      ∃ (b pos : Nat) (i : Insn) (r : Register),
        (g.block b).insns[pos]? = some i ∧ i.result = some r ∧ d = ⟨r.reg, r.wide, .insn b pos⟩) ∧
    (∀ u ∈ (build g entry).uses, ∃ i r,
      (g.block u.block).insns[u.pos]? = some i ∧ (u.path, r) ∈ i.reads ∧ u.reg = r.reg) ∧
    ∀ (b pos : Nat) (i : Insn) (path : ArgPath) (r : Register),
      (g.block b).insns[pos]? = some i → (path, r) ∈ i.reads → ∃ id u,
        (build g entry).useAt? b pos path = some id ∧ (build g entry).uses[id]? = some u ∧ u.reg = r.reg ∧
          ∀ k, k ∈ u.reaching ↔ ∃ d, (build g entry).defs[k]? = some d ∧ d.reg = r.reg ∧ g.Carried d b pos := by
  refine ⟨round_reached g entry, fun d => ?_, fun u hu => ?_, fun b pos i path r hi hr => ?_⟩
  · change d ∈ (collectDefs g entry).toArray ↔ _
    rw [List.mem_toArray, mem_collectDefs]
    simp only [defOf, Option.map_eq_some_iff]
    refine or_congr Iff.rfl (exists_congr fun b => exists_congr fun pos => exists_congr fun i => ?_)
    constructor
    · rintro ⟨hi, r, hr, rfl⟩
      exact ⟨r, hi, hr, rfl⟩
    · rintro ⟨r, hi, hr, rfl⟩
      exact ⟨hi, r, hr, rfl⟩
  · obtain ⟨i, r, hi, hr, hreg⟩ := (exact_of_mem hu).read
    exact ⟨i, r, hi, hr, hreg.symm⟩
  · simp only [getElem?_defs]
    exact exists_exact_use entry hi hr

/-- Adds a parameter to a constant until the sum is not zero. -/
def sumUntil : Graph where
  blocks := #[⟨0, [.of .const [.lit 5 .int] (some (.plain 1)) 0], [1], []⟩,
    ⟨1, [.of (.arith .add .int) [.ofReg 1, .ofReg 0] (some (.plain 1)) 1, .of (.jumpIf .eq 1) [.ofReg 1] none 2],
      [2, 1], []⟩,
    ⟨3, [.of .ret [.ofReg 1] none 3], [], []⟩]
  entry := 0
  tries := []

/-- The addition reads the constant and its own result. -/
theorem reaching_exact_sumUntil :
    Graph.build (sumUntil.blocks.toList.flatMap Block.insns) [] 4 = .ok sumUntil ∧
      (build sumUntil [.plain 0]).uses.toList.map Use.reaching = [[1, 2], [0], [2], [2]] ∧
      ∃ id u, (build sumUntil [.plain 0]).useAt? 1 0 [.arg 0] = some id ∧
        (build sumUntil [.plain 0]).uses[id]? = some u ∧ u.reg = 1 ∧ ∀ k, k ∈ u.reaching ↔
          ∃ d, (build sumUntil [.plain 0]).defs[k]? = some d ∧ d.reg = 1 ∧ sumUntil.Carried d 1 0 :=
  ⟨by cbv, by decide +kernel, (reaching_exact sumUntil [.plain 0]).2.2.2 1 0
    (.of (.arith .add .int) [.ofReg 1, .ofReg 0] (some (.plain 1)) 1) [.arg 0] (.plain 1) rfl (by decide)⟩

end JavaLift.Chain
