import JavaLift.Proofs.DefUse.Numbers

namespace JavaLift

/-- The instruction writes the register. A wide value also writes the register after its own. -/
def Insn.overwrites (i : Insn) (reg : Nat) : Prop :=
  ∃ r, i.result = some r ∧ (reg = r.reg ∨ r.wide = true ∧ reg = (r.reg + 1) % 65536)

/-- A way leads from a definition to the place before an instruction of a block, and nothing on it overwrites the
register. In the normal way control leaves a block at its end. An exception carries on what has reached the start of
the block, and all that the block defines. -/
inductive Graph.Carried (g : Graph) (d : Def) : Nat → Nat → Prop where
  | entry : d.site = .entry → Carried g d g.entry 0
  | made {b pos : Nat} : d.site = .insn b pos → Carried g d b (pos + 1)
  | next {b pos : Nat} {i : Insn} : Carried g d b pos → (g.block b).insns[pos]? = some i → ¬ i.overwrites d.reg →
    Carried g d b (pos + 1)
  | edge {b c : Nat} : Carried g d b (g.block b).insns.length → c ∈ g.succs b → Carried g d c 0
  | thrown {b c : Nat} : Carried g d b 0 → c ∈ g.handlers b → Carried g d c 0
  | thrownMade {b c pos : Nat} : d.site = .insn b pos → c ∈ g.handlers b → Carried g d c 0

theorem Def.mem_written {d : Def} {reg : Nat} :
    reg ∈ d.written ↔ reg = d.reg ∨ d.wide = true ∧ reg = (d.reg + 1) % 65536 := by
  unfold written
  split <;> simp_all

theorem Insn.overwrites_iff {i : Insn} {reg : Nat} (b pos : Nat) :
    i.overwrites reg ↔ ∃ d, Chain.defOf b pos i = some d ∧ reg ∈ d.written := by
  simp only [overwrites, Chain.defOf, Option.map_eq_some_iff, Def.mem_written]
  constructor
  · rintro ⟨r, hr, h⟩
    exact ⟨_, ⟨r, hr, rfl⟩, h⟩
  · rintro ⟨_, ⟨r, hr, rfl⟩, h⟩
    exact ⟨r, hr, h⟩

theorem Insn.not_overwrites {i : Insn} {reg : Nat} (h : i.result = none) : ¬ i.overwrites reg := by
  rintro ⟨r, hr, -⟩
  rw [h] at hr
  cases hr

namespace Graph.Carried

variable {g : Graph} {d : Def} {b pos : Nat} {i : Insn}

theorem succ_iff (hi : (g.block b).insns[pos]? = some i) :
    g.Carried d b (pos + 1) ↔ g.Carried d b pos ∧ ¬ i.overwrites d.reg ∨ d.site = .insn b pos := by
  constructor
  · intro h
    cases h with
    | made hsite => exact .inr hsite
    | next h hj hkeeps =>
        rw [hi] at hj
        cases hj
        exact .inl ⟨h, hkeeps⟩
  · rintro (⟨h, hkeeps⟩ | hsite)
    · exact h.next hi hkeeps
    · exact .made hsite

end Graph.Carried

namespace Transfer

variable {defs : Array Def} {t : Transfer} {s : NatSet} {reg k n : Nat}

def OfReg (defs : Array Def) (n reg : Nat) : Prop := ∃ d, defs[n]? = some d ∧ d.reg = reg

theorem mem_definitionsOf : n ∈ definitionsOf defs reg ↔ OfReg defs n reg := by
  rw [definitionsOf, List.mem_filter, List.mem_range, OfReg]
  constructor
  · rintro ⟨-, h⟩
    cases hd : defs[n]? with
    | none => simp [hd] at h
    | some d => exact ⟨d, rfl, by simpa [hd] using h⟩
  · rintro ⟨d, hd, rfl⟩
    exact ⟨(Array.getElem?_eq_some_iff.mp hd).1, by simp [hd]⟩

theorem contains_foldl_erase (ids : List Nat) (s : NatSet) :
    (ids.foldl NatSet.erase s).contains n = true ↔ s.contains n = true ∧ n ∉ ids := by
  induction ids generalizing s with
  | nil => simp
  | cons i ids ih =>
      rw [List.foldl_cons, ih, NatSet.contains_erase, List.mem_cons]
      simp only [Bool.and_eq_true, bne_iff_ne]
      tauto

theorem contains_foldl_insert (ids : List Nat) (s : NatSet) :
    (ids.foldl NatSet.insert s).contains n = true ↔ s.contains n = true ∨ n ∈ ids := by
  induction ids generalizing s with
  | nil => simp
  | cons i ids ih =>
      rw [List.foldl_cons, ih, NatSet.contains_insert, List.mem_cons]
      simp only [Bool.or_eq_true, beq_iff_eq]
      tauto

theorem contains_apply : (t.apply s).contains n = true ↔
    s.contains n = true ∧ t.killed.contains n = false ∨ t.kept.contains n = true := by
  rw [apply, NatSet.contains_union, NatSet.contains_diff]
  simp

/-- Writing registers takes away what is defined for them, at the start as well as in the block. -/
theorem apply_foldl_overwrite (regs : List Nat) (t : Transfer) :
    ((regs.foldl (overwrite defs) t).apply s).contains n = true ↔
      (t.apply s).contains n = true ∧ ∀ reg ∈ regs, ¬ OfReg defs n reg := by
  induction regs generalizing t with
  | nil => simp
  | cons reg regs ih =>
      have hfirst : ((overwrite defs t reg).apply s).contains n = true ↔
          (t.apply s).contains n = true ∧ ¬ OfReg defs n reg := by
        rw [contains_apply, contains_apply, ← mem_definitionsOf, overwrite, contains_foldl_erase,
          Bool.eq_false_iff, Ne, contains_foldl_insert]
        simp only [← Bool.not_eq_true]
        tauto
      rw [List.foldl_cons, ih, hfirst, List.forall_mem_cons, and_assoc]

theorem made_foldl_overwrite (regs : List Nat) (t : Transfer) : (regs.foldl (overwrite defs) t).made = t.made := by
  induction regs generalizing t with
  | nil => rfl
  | cons reg regs ih => rw [List.foldl_cons, ih, overwrite]

theorem apply_define {d : Def} (hd : defs[k]? = some d) : ((t.define defs k).apply s).contains n = true ↔
    ((t.apply s).contains n = true ∧ ∀ reg ∈ d.written, ¬ OfReg defs n reg) ∨ n = k := by
  rw [← apply_foldl_overwrite, define, hd]
  simp only [contains_apply, NatSet.contains_insert, Bool.or_eq_true, beq_iff_eq, eq_comm (a := k)]
  tauto

theorem made_define {d : Def} (hd : defs[k]? = some d) :
    (t.define defs k).made.contains n = true ↔ t.made.contains n = true ∨ n = k := by
  rw [define, hd]
  simp only [made_foldl_overwrite, NatSet.contains_insert, Bool.or_eq_true, beq_iff_eq, eq_comm (a := k)]

theorem apply_empty : ((⟨∅, ∅, ∅⟩ : Transfer).apply s).contains n = s.contains n := by
  simp [apply, NatSet.contains_union, NatSet.contains_diff]

section

variable {g : Graph} {entry : List Register} {b pos : Nat} {row : Array (Option Nat)} {i : Insn} {x : Def}

def upTo (defs : Array Def) (row : Array (Option Nat)) (pos : Nat) : Transfer :=
  ofDefs defs ((row.toList.take pos).filterMap id)

theorem upTo_zero (defs : Array Def) (row : Array (Option Nat)) : upTo defs row 0 = ⟨∅, ∅, ∅⟩ := rfl

theorem upTo_size (defs : Array Def) (row : Array (Option Nat)) :
    upTo defs row row.size = ofDefs defs (row.toList.filterMap id) := by
  rw [upTo, ← Array.length_toList, List.take_length]

theorem upTo_idle (h : row[pos]? = some none) : upTo defs row (pos + 1) = upTo defs row pos := by
  rw [← Array.getElem?_toList] at h
  simp [upTo, List.take_add_one, h]

theorem upTo_made (h : row[pos]? = some (some k)) :
    upTo defs row (pos + 1) = (upTo defs row pos).define defs k := by
  rw [← Array.getElem?_toList] at h
  simp [upTo, ofDefs, List.take_add_one, h]

variable (hrow : Chain.Row 0 b (Chain.collectDefs g entry) (g.block b).insns row)
include hrow

/-- One more instruction of a block defines nothing, or it makes its definition. -/
theorem upTo_succ_cases (hi : (g.block b).insns[pos]? = some i) :
    (Chain.defOf b pos i = none ∧
      upTo (Chain.collectDefs g entry).toArray row (pos + 1) = upTo (Chain.collectDefs g entry).toArray row pos) ∨
    ∃ d k, Chain.defOf b pos i = some d ∧ (Chain.collectDefs g entry)[k]? = some d ∧
      upTo (Chain.collectDefs g entry).toArray row (pos + 1) =
        (upTo (Chain.collectDefs g entry).toArray row pos).define (Chain.collectDefs g entry).toArray k := by
  cases hd : Chain.defOf b pos i with
  | none => exact .inl ⟨rfl, upTo_idle (hrow.idle pos i hi hd)⟩
  | some d =>
      obtain ⟨k, hk, hkd⟩ := hrow.made pos i d hi hd
      rw [Nat.zero_add] at hk
      exact .inr ⟨d, k, rfl, hkd, upTo_made hk⟩

/-- What the instruction overwrites is gone, and what it defines is there. -/
theorem apply_upTo_succ (hi : (g.block b).insns[pos]? = some i) (hx : (Chain.collectDefs g entry)[n]? = some x) :
    ((upTo (Chain.collectDefs g entry).toArray row (pos + 1)).apply s).contains n = true ↔
      ((upTo (Chain.collectDefs g entry).toArray row pos).apply s).contains n = true ∧ ¬ i.overwrites x.reg ∨
        x.site = .insn b pos := by
  rw [Insn.overwrites_iff b pos]
  obtain ⟨hd, heq⟩ | ⟨d, k, hd, hkd, heq⟩ := upTo_succ_cases hrow hi
  · simp [heq, hd, Chain.site_ne_of_idle hx hi hd]
  · rw [heq, apply_define (d := d) (by simpa using hkd), Chain.eq_iff_site hx hkd hd]
    refine or_congr_left (and_congr_right fun _ => ?_)
    constructor
    · rintro h ⟨_, hd', hmem⟩
      cases hd.symm.trans hd'
      exact h _ hmem ⟨x, by simpa using hx, rfl⟩
    · rintro h reg hreg ⟨y, hy, rfl⟩
      obtain rfl : x = y := by simpa [hx] using hy
      exact h ⟨d, hd, hreg⟩

theorem made_upTo_succ (hi : (g.block b).insns[pos]? = some i) (hx : (Chain.collectDefs g entry)[n]? = some x) :
    (upTo (Chain.collectDefs g entry).toArray row (pos + 1)).made.contains n = true ↔
      (upTo (Chain.collectDefs g entry).toArray row pos).made.contains n = true ∨ x.site = .insn b pos := by
  obtain ⟨hd, heq⟩ | ⟨d, k, hd, hkd, heq⟩ := upTo_succ_cases hrow hi
  · simp [heq, Chain.site_ne_of_idle hx hi hd]
  · rw [heq, made_define (d := d) (by simpa using hkd), Chain.eq_iff_site hx hkd hd]

theorem made_upTo_iff (hx : (Chain.collectDefs g entry)[n]? = some x) (hpos : pos ≤ (g.block b).insns.length) :
    (upTo (Chain.collectDefs g entry).toArray row pos).made.contains n = true ↔ ∃ p < pos, x.site = .insn b p := by
  induction pos with
  | zero =>
      simp [upTo_zero]
  | succ pos ih =>
      rw [made_upTo_succ hrow (List.getElem?_eq_getElem hpos) hx, ih (Nat.le_of_succ_le hpos)]
      constructor
      · rintro (⟨p, hp, h⟩ | h)
        · exact ⟨p, Nat.lt_succ_of_lt hp, h⟩
        · exact ⟨pos, Nat.lt_succ_self pos, h⟩
      · rintro ⟨p, hp, h⟩
        rcases Nat.lt_succ_iff_lt_or_eq.mp hp with hp | rfl
        · exact .inl ⟨p, hp, h⟩
        · exact .inr h

/-- The set of a block is right at every place, if it is right at the start. -/
theorem carried_of_apply (hx : (Chain.collectDefs g entry)[n]? = some x)
    (hstart : s.contains n = true → g.Carried x b 0) (hpos : pos ≤ (g.block b).insns.length)
    (h : ((upTo (Chain.collectDefs g entry).toArray row pos).apply s).contains n = true) : g.Carried x b pos := by
  induction pos with
  | zero => exact hstart (by rwa [upTo_zero, apply_empty] at h)
  | succ pos ih =>
      have hi := List.getElem?_eq_getElem hpos
      rw [apply_upTo_succ hrow hi hx] at h
      exact (Graph.Carried.succ_iff hi).mpr (h.imp_left (And.imp_left (ih (Nat.le_of_succ_le hpos))))

theorem exists_def_of_apply (hpos : pos ≤ (g.block b).insns.length)
    (h : ((upTo (Chain.collectDefs g entry).toArray row pos).apply s).contains n = true) :
    s.contains n = true ∨ ∃ x, (Chain.collectDefs g entry)[n]? = some x := by
  induction pos with
  | zero => exact .inl (by rwa [upTo_zero, apply_empty] at h)
  | succ pos ih =>
      obtain ⟨-, heq⟩ | ⟨d, k, -, hkd, heq⟩ := upTo_succ_cases hrow (List.getElem?_eq_getElem hpos)
      · exact ih (Nat.le_of_succ_le hpos) (heq ▸ h)
      · rw [heq, apply_define (d := d) (by simpa using hkd)] at h
        rcases h with ⟨h, -⟩ | rfl
        · exact ih (Nat.le_of_succ_le hpos) h
        · exact .inr ⟨d, hkd⟩

theorem exists_def_of_made (hpos : pos ≤ (g.block b).insns.length)
    (h : (upTo (Chain.collectDefs g entry).toArray row pos).made.contains n = true) :
    ∃ x, (Chain.collectDefs g entry)[n]? = some x := by
  induction pos with
  | zero =>
      simp [upTo_zero] at h
  | succ pos ih =>
      obtain ⟨-, heq⟩ | ⟨d, k, -, hkd, heq⟩ := upTo_succ_cases hrow (List.getElem?_eq_getElem hpos)
      · exact ih (Nat.le_of_succ_le hpos) (heq ▸ h)
      · rw [heq, made_define (d := d) (by simpa using hkd)] at h
        rcases h with h | rfl
        · exact ih (Nat.le_of_succ_le hpos) h
        · exact ⟨d, hkd⟩

end

end Transfer

end JavaLift
