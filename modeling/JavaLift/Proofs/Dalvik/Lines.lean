import JavaLift.Proofs.Dalvik.Filling

namespace JavaLift.Dalvik

variable {a b : Assembler} {program : List Stmt} {lines : List (Nat × Stmt)} {pos pc : Nat} {pool : Pool} {s : Stmt}
  {d : Distances}

def Assembler.positions (a : Assembler) : List Stmt → List (Nat × Stmt)
  | [] => []
  | s :: rest => (a.pc, s) :: (a.add s).positions rest

def positions (program : List Stmt) : List (Nat × Stmt) := Assembler.empty.positions program

def labelPlace? (lines : List (Nat × Stmt)) (name : String) : Option Nat :=
  lines.findSome? fun (pc, s) => match s with
    | .label l => if l = name then some pc else none
    | _ => none

def Stmt.label? (pc : Nat) : Stmt → Option (String × Nat)
  | .label name => some (name, pc)
  | _ => none

def Stmt.switch? (pc : Nat) : Stmt → Option PendingSwitch
  | .packedSwitch _ first targets => some ⟨pc, .packed first, targets⟩
  | .sparseSwitch _ cases => some ⟨pc, .sparse (cases.map (·.1)), cases.map (·.2)⟩
  | _ => none

def cellsOf (lines : List (Nat × Stmt)) : List Cell := lines.flatMap fun (pc, s) => s.cells pc

def switchesOf (lines : List (Nat × Stmt)) : List PendingSwitch := lines.filterMap fun (pc, s) => s.switch? pc

/-- Each line stands behind the one before it. -/
def Consecutive (pos : Nat) : List (Nat × Stmt) → Prop
  | [] => True
  | (pc, s) :: rest => pc = pos ∧ Consecutive (pos + width (s.cells pos)) rest

@[simp] theorem cellsOf_nil : cellsOf [] = [] := rfl

@[simp] theorem cellsOf_cons (pc : Nat) (s : Stmt) : cellsOf ((pc, s) :: lines) = s.cells pc ++ cellsOf lines := rfl

@[simp] theorem switchesOf_cons (pc : Nat) (s : Stmt) :
    switchesOf ((pc, s) :: lines) = (s.switch? pc).toList ++ switchesOf lines := by
  cases h : s.switch? pc <;> simp [switchesOf, h]

/-- A line of a program that has a meaning: its numbers have as many bits as their places, its variant is one that there
is, its entries are in the pool, and a call passes as many registers as the method takes. Units are not given by
number. -/
def Stmt.Valid (pool : Pool) : Stmt → Prop
  | .raw _ => False
  | .const _ value => FitsIn 32 value
  | .constWide _ value => FitsIn 64 value
  | .compare variant _ _ _ => variant ≤ 4
  | .arrayGet variant _ _ _ | .arrayPut variant _ _ _ => variant ≤ 6
  | .binaryLiteral variant _ _ value => variant ≤ 10 ∧ FitsIn 8 value
  | .constString _ index => index < 2 ^ 16 ∧ (pool.string? index).isSome
  | .constClass _ index | .checkCast _ index | .newInstance _ index | .instanceOf _ _ index | .newArray _ _ index =>
    index < 2 ^ 16 ∧ (pool.type? index).isSome
  | .instanceGet _ _ _ index | .instancePut _ _ _ index | .staticGet _ _ index | .staticPut _ _ index =>
    index < 2 ^ 16 ∧ (pool.field? index).isSome
  | .invoke kind index regs => index < 2 ^ 16 ∧ regs.length ≤ 5 ∧
    ∃ m, pool.method? index = some m ∧ regs.length = m.argumentRegisters kind.isStatic
  | .invokeRange kind index first count => index < 2 ^ 16 ∧ first < 2 ^ 16 ∧ count < 2 ^ 8 ∧
    ∃ m, pool.method? index = some m ∧ count = m.argumentRegisters kind.isStatic
  | .packedSwitch _ first targets => FitsIn 32 first ∧ targets.length < 2 ^ 16
  | .sparseSwitch _ cases => cases.length < 2 ^ 16 ∧ ∀ c ∈ cases, FitsIn 32 c.1
  | .unary opcode _ _ => 0x7b ≤ opcode ∧ opcode ≤ 0x8f
  | _ => True

/-- An opcode with one operand is not below all of these. -/
def Stmt.UnaryFrom (s : Stmt) : Prop := ∀ n x y, s = .unary n x y → 0x7b ≤ n

namespace Assembler

def notes (a : Assembler) : List (String × Nat) × List PendingSwitch := (a.labels, a.switches)

theorem notes_fit (a : Assembler) (bits r : Nat) : (a.fit bits r).notes = a.notes := by
  unfold fit
  split <;> rfl

theorem notes_fitAll (a : Assembler) (regs : List Nat) : (regs.foldl (fun b r => b.fit 4 r) a).notes = a.notes := by
  induction regs generalizing a with
  | nil => rfl
  | cons r regs ih => exact (ih _).trans (notes_fit a 4 r)

theorem notes_emitAll (a : Assembler) (us : List Nat) : (a.emitAll us).notes = a.notes := by
  induction us generalizing a with
  | nil => rfl
  | cons u us ih => exact ih _

theorem notes_emit (a : Assembler) (u : Nat) : (a.emit u).notes = a.notes := rfl

theorem notes_jump (a : Assembler) (pc place : Nat) (l : String) (reach : Reach) :
    (a.jump pc place l reach).notes = a.notes := rfl

theorem notes_switch (a : Assembler) (opcode r : Nat) (keys : SwitchKeys) (targets : List String) :
    (a.switch opcode r keys targets).notes = (a.labels, a.switches ++ [⟨a.pc, keys, targets⟩]) := by
  have hcode : ((a.byteForm opcode r).emitAll [0, 0]).notes = a.notes :=
    (notes_emitAll _ _).trans (notes_fit a 8 r)
  simp only [notes, Prod.mk.injEq] at hcode
  simp [switch, notes, hcode]

theorem notes_add (a : Assembler) (s : Stmt) :
    (a.add s).notes = ((s.label? a.pc).toList ++ a.labels, a.switches ++ (s.switch? a.pc).toList) := by
  have hsame {b : Assembler} (h : b.notes = a.notes) : b.notes = ([] ++ a.labels, a.switches ++ []) := by
    rw [h, List.nil_append, List.append_nil]
    rfl
  cases s with
  | label name =>
      simp only [add]
      split <;> simp [notes, fail, Stmt.label?, Stmt.switch?]
  | packedSwitch | sparseSwitch => exact notes_switch a _ _ _ _
  | const | constWide =>
      refine hsame ?_
      simp only [add, const, constWide]
      split_ifs <;> simp [byteForm, notes_emit, notes_emitAll, notes_fit]
  | _ =>
      refine hsame ?_
      simp [add, byteForm, nibbleForm, tripleForm, invoke, notes_jump, notes_emit, notes_emitAll, notes_fit,
        notes_fitAll]
      <;> rfl

end Assembler

theorem addAll_grows (hs : ∀ s ∈ program, s.UnaryFrom) (h : (program.foldl Assembler.add a).fault = none) :
    Grows a (program.foldl Assembler.add a) (cellsOf (a.positions program)) ∧
      (∀ p ∈ a.positions program, p.2.Fits) ∧ Consecutive a.pc (a.positions program) := by
  induction program generalizing a with
  | nil => exact ⟨.refl a, nofun, trivial⟩
  | cons s rest ih =>
      rw [List.forall_mem_cons] at hs
      obtain ⟨hgrows, hfits, hnext⟩ := ih hs.2 h
      have hadd := add_grows hs.1 (hgrows.fault h)
      rw [Assembler.positions, List.forall_mem_cons]
      refine ⟨hadd.2.trans hgrows, ⟨hadd.1, hfits⟩, rfl, ?_⟩
      rw [← hadd.2.pc]
      exact hnext

theorem addAll_switches (a : Assembler) (program : List Stmt) :
    (program.foldl Assembler.add a).switches = a.switches ++ switchesOf (a.positions program) := by
  induction program generalizing a with
  | nil => exact (List.append_nil _).symm
  | cons s rest ih =>
      have hadd : (a.add s).switches = a.switches ++ (s.switch? a.pc).toList := congrArg Prod.snd (a.notes_add s)
      rw [List.foldl_cons, ih, hadd, Assembler.positions, switchesOf_cons, List.append_assoc]

theorem label_fresh {name : String} (h : (a.add (.label name)).fault = none) : a.labels.lookup name = none := by
  simp only [Assembler.add] at h
  split at h
  · cases hf : a.fault <;> simp_all [Assembler.fail]
  · rename_i hnone
    exact Option.not_isSome_iff_eq_none.mp hnone

theorem addAll_labels (hs : ∀ s ∈ program, s.UnaryFrom) (h : (program.foldl Assembler.add a).fault = none)
    (name : String) :
    (program.foldl Assembler.add a).place? name = (a.place? name).or (labelPlace? (a.positions program) name) := by
  induction program generalizing a with
  | nil => simp [Assembler.positions, labelPlace?]
  | cons s rest ih =>
      rw [List.forall_mem_cons] at hs
      have hadd : (a.add s).labels = (s.label? a.pc).toList ++ a.labels := congrArg Prod.fst (a.notes_add s)
      have hfault := (addAll_grows hs.2 h).1.fault h
      rw [List.foldl_cons, ih hs.2 h, Assembler.place?, Assembler.place?, hadd, Assembler.positions]
      cases s with
      | label l =>
          by_cases heq : l = name
          · subst heq
            simp [Stmt.label?, label_fresh hfault, labelPlace?]
          · have hne : (name == l) = false := by simpa using Ne.symm heq
            simp [Stmt.label?, List.lookup, hne, heq, labelPlace?]
      | _ => rfl

theorem Assembler.wordUnits_lt (x : Int) : ∀ u ∈ Assembler.wordUnits x, u < 2 ^ 16 := by
  simp only [Assembler.wordUnits, List.mem_cons, List.not_mem_nil, or_false, forall_eq_or_imp, forall_eq]
  omega

theorem sound_units {us : List Nat} (h : ∀ u ∈ us, u < 2 ^ 16) : ∀ c ∈ us.map Cell.unit, c.Sound := by
  intro c hc
  obtain ⟨u, hu, rfl⟩ := List.mem_map.mp hc
  exact h u hu

namespace Stmt

/-- An instruction has an opcode, and its numbers have as many bits as their places. -/
theorem form_sound (hvalid : s.Valid pool) (hfits : s.Fits) {o : Opcode} {aa : Nat} {rest : List Cell}
    (h : s.form? pc = some (o, aa, rest)) : o ∈ Opcode.all ∧ aa < 256 ∧ ∀ c ∈ rest, c.Sound := by
  cases s with
  | raw | label | line | tryRange | goto8 => cases h
  | const r value =>
      simp only [form?] at h
      simp only [Fits] at hfits
      split_ifs at h <;> cases h
      · exact ⟨by decide, by omega, List.forall_mem_nil _⟩
      · exact ⟨by decide, hfits, by simp [Cell.Sound]; omega⟩
      · exact ⟨by decide, hfits, by simp [Cell.Sound]; omega⟩
      · exact ⟨by decide, hfits, sound_units (Assembler.wordUnits_lt value)⟩
  | constWide r value =>
      simp only [form?] at h
      simp only [Fits] at hfits
      split_ifs at h <;> cases h
      · exact ⟨by decide, hfits, by simp [Cell.Sound]; omega⟩
      · exact ⟨by decide, hfits, sound_units (Assembler.wordUnits_lt value)⟩
      · refine ⟨by decide, hfits, sound_units ?_⟩
        rw [List.forall_mem_append]
        exact ⟨Assembler.wordUnits_lt _, Assembler.wordUnits_lt _⟩
  | unary n x y =>
      cases h
      simp only [Fits] at hfits
      simp only [Valid] at hvalid
      exact ⟨Opcode.unary_mem _ (by omega), by omega, List.forall_mem_nil _⟩
  | invoke kind index regs =>
      simp only [form?, Option.some.injEq, Prod.mk.injEq] at h
      obtain ⟨rfl, rfl, rfl⟩ := h
      have hreg := Assembler.nibble_lt hfits
      have hlength : (regs.take 5).length ≤ 5 := List.length_take_le 5 regs
      have hlast := hreg 4
      refine ⟨by cases kind <;> decide, by omega, ?_⟩
      have h0 := hreg 0
      have h1 := hreg 1
      have h2 := hreg 2
      have h3 := hreg 3
      simp only [List.forall_mem_cons, Cell.Sound]
      exact ⟨hvalid.1, by omega, List.forall_mem_nil _⟩
  | invokeRange kind index first count =>
      cases h
      refine ⟨by cases kind <;> decide, hvalid.2.2.1, ?_⟩
      simpa [Cell.Sound] using ⟨hvalid.1, hvalid.2.1⟩
  | compare variant =>
      cases h
      simp only [Fits] at hfits
      exact ⟨by cases CompareKind.ofVariant variant <;> decide, by omega, by simp [Cell.Sound]; omega⟩
  | arrayGet variant | arrayPut variant =>
      cases h
      simp only [Fits] at hfits
      exact ⟨by cases ElementKind.ofVariant variant <;> decide, by omega, by simp [Cell.Sound]; omega⟩
  | binaryLiteral variant =>
      cases h
      simp only [Fits] at hfits
      exact ⟨by cases Opcode.literalOp variant <;> decide, by omega, by simp [Cell.Sound]; omega⟩
  | move kind | moveResult kind | ret kind | instanceGet kind | instancePut kind | staticGet kind | staticPut kind
  | ifCmp kind | ifZero kind | binary kind | binaryTwo kind =>
      cases h
      simp only [Fits] at hfits
      simp only [Valid] at hvalid
      exact ⟨by cases kind <;> decide, by omega, by simp [Cell.Sound]; try omega⟩
  | _ =>
      cases h
      simp only [Fits] at hfits
      simp only [Valid] at hvalid
      exact ⟨by decide, by omega, by simp [Cell.Sound]; try omega⟩

/-- A line writes nothing, or a short jump, or an instruction of a form. -/
theorem form_cases (hvalid : s.Valid pool) (pc : Nat) :
    s.silent = true ∨ (∃ l, s = .goto8 l) ∨ ∃ o aa rest, s.form? pc = some (o, aa, rest) := by
  cases s with
  | raw => exact hvalid.elim
  | label | line | tryRange => exact .inl rfl
  | goto8 l => exact .inr (.inl ⟨l, rfl⟩)
  | const | constWide =>
      refine .inr (.inr ?_)
      simp only [form?]
      split_ifs <;> exact ⟨_, _, _, rfl⟩
  | _ => exact .inr (.inr ⟨_, _, _, rfl⟩)

theorem cells_sound (hvalid : s.Valid pool) (hfits : s.Fits) : ∀ c ∈ s.cells pc, c.Sound := by
  rcases form_cases hvalid pc with hsilent | ⟨l, rfl⟩ | ⟨o, aa, rest, hform⟩
  · rw [cells_of_silent hsilent]
    nofun
  · simp [cells, Cell.Sound, Opcode.byte]
  · obtain ⟨ho, haa, hrest⟩ := form_sound hvalid hfits hform
    have hbyte := Opcode.byte_lt o ho
    rw [cells_of_form hform, List.forall_mem_cons]
    exact ⟨by simp only [Cell.Sound]; omega, hrest⟩

theorem cells_placed (pc : Nat) (s : Stmt) : PlacedFrom pc (s.cells pc) := by
  cases s with
  | packedSwitch | sparseSwitch => exact ⟨nofun, fun _ h => congrArg (· + 1) (Cell.table.inj h), trivial⟩
  | const | constWide =>
      refine NoTable.placedFrom fun pc' h => ?_
      simp only [cells, form?] at h
      split_ifs at h <;> simp at h
  | _ => exact NoTable.placedFrom (by simp [NoTable, cells, form?])

theorem table_mem {w : PendingSwitch} (h : s.switch? pc = some w) : w.pc = pc ∧ .table pc ∈ s.cells pc := by
  cases s with
  | packedSwitch | sparseSwitch =>
      cases h
      exact ⟨rfl, by simp [cells, form?]⟩
  | _ => cases h

end Stmt

theorem Consecutive.placed (h : Consecutive pos lines) : PlacedFrom pos (cellsOf lines) := by
  induction lines generalizing pos with
  | nil => trivial
  | cons p rest ih =>
      obtain ⟨pc, s⟩ := p
      obtain ⟨rfl, hrest⟩ := h
      exact placedFrom_append.mpr ⟨s.cells_placed pc, ih hrest⟩

theorem table_mem_cellsOf {w : PendingSwitch} (h : w ∈ switchesOf lines) : .table w.pc ∈ cellsOf lines := by
  obtain ⟨⟨pc, s⟩, hmem, hs⟩ := List.mem_filterMap.mp h
  obtain ⟨hpc, htable⟩ := Stmt.table_mem hs
  rw [hpc]
  exact List.mem_flatMap.mpr ⟨(pc, s), hmem, htable⟩

theorem Consecutive.distinct (h : Consecutive pos lines) :
    (switchesOf lines).Pairwise fun w w' => w.pc ≠ w'.pc := by
  induction lines generalizing pos with
  | nil => exact .nil
  | cons p rest ih =>
      obtain ⟨pc, s⟩ := p
      obtain ⟨rfl, hrest⟩ := h
      rw [switchesOf_cons]
      cases hs : s.switch? pc with
      | none => exact ih hrest
      | some w =>
          refine List.pairwise_cons.mpr ⟨fun w' hw' heq => ?_, ih hrest⟩
          obtain ⟨hpc, htable⟩ := Stmt.table_mem hs
          have hle := hrest.placed.le (table_mem_cellsOf hw')
          have hsize : (Cell.table pc).size ≤ width (s.cells pc) :=
            List.single_le_sum (by simp) _ (List.mem_map_of_mem htable)
          simp only [Cell.size] at hsize
          omega

theorem PendingSwitch.cells_sound {w : PendingSwitch} (h : w.targets.length < 2 ^ 16) : ∀ c ∈ w.cells, c.Sound := by
  have hword := Assembler.wordUnits_lt
  rw [PendingSwitch.cells, List.forall_mem_append]
  refine ⟨sound_units ?_, fun c hc => ?_⟩
  · unfold PendingSwitch.header
    cases w.keys with
    | packed first =>
        simp only [List.forall_mem_append, List.forall_mem_cons]
        exact ⟨⟨by decide, h, nofun⟩, hword first⟩
    | sparse keys =>
        simp only [List.forall_mem_append, List.forall_mem_cons, List.mem_flatMap]
        exact ⟨⟨by decide, h, nofun⟩, fun u ⟨key, _, hu⟩ => hword key u hu⟩
  · obtain ⟨l, -, rfl⟩ := List.mem_map.mp hc
    trivial

theorem tables_sound {switches : List PendingSwitch} (h : ∀ w ∈ switches, w.targets.length < 2 ^ 16) (pos : Nat) :
    ∀ c ∈ tablesFrom pos switches, c.Sound := by
  induction switches generalizing pos with
  | nil => exact List.forall_mem_nil _
  | cons w rest ih =>
      rw [List.forall_mem_cons] at h
      rw [tablesFrom, List.forall_mem_append, List.forall_mem_append]
      refine ⟨⟨?_, PendingSwitch.cells_sound h.1⟩, ih h.2 _⟩
      unfold padding
      split
      · exact List.forall_mem_nil _
      · exact List.forall_mem_singleton.mpr (Nat.zero_lt_succ _)

theorem length_targets (hvalid : ∀ p ∈ lines, p.2.Valid pool) :
    ∀ w ∈ switchesOf lines, w.targets.length < 2 ^ 16 := by
  intro w hw
  obtain ⟨⟨pc, s⟩, hmem, hs⟩ := List.mem_filterMap.mp hw
  have hs' := hvalid _ hmem
  cases s with
  | packedSwitch =>
      cases hs
      exact hs'.2
  | sparseSwitch =>
      cases hs
      exact (List.length_map _).trans_lt hs'.1
  | _ => cases hs

/-- The cells of a program: those of its lines, and behind them the tables of the switches. -/
def allCells (lines : List (Nat × Stmt)) : List Cell :=
  cellsOf lines ++ tablesFrom (width (cellsOf lines)) (switchesOf lines)

/-- The code of a program. Each jump has the distance to its label, and each switch the one to its table. -/
structure Renders (lines : List (Nat × Stmt)) (d : Distances) (units : Array UInt16) : Prop where
  units : units.toList = (spell d (allCells lines)).map UInt16.ofNat
  sound : ∀ c ∈ allCells lines, c.Sound
  reached : ∀ c ∈ allCells lines, c.Reached (labelPlace? lines) d
  tables : ∀ p ∈ tableStarts (width (cellsOf lines)) (switchesOf lines), d.table p.2.pc = (p.1 : Int) - p.2.pc

theorem map_positions (a : Assembler) (program : List Stmt) : (a.positions program).map (·.2) = program := by
  induction program generalizing a with
  | nil => rfl
  | cons s rest ih => rw [Assembler.positions, List.map_cons, ih]

theorem mem_of_mem_positions {p : Nat × Stmt} (h : p ∈ a.positions program) : p.2 ∈ program := by
  rw [← map_positions a program]
  exact List.mem_map_of_mem h

theorem finish_ok {out : Assembled} (h : a.finish = .ok out) :
    a.fault = none ∧ (a.switches.foldl Assembler.layOut a).fixups.foldlM (a.switches.foldl Assembler.layOut a).patch
      (a.switches.foldl Assembler.layOut a).units = .ok out.units := by
  unfold Assembler.finish at h
  cases hf : a.fault with
  | some fault =>
      rw [hf] at h
      cases h
  | none =>
      rw [hf] at h
      obtain ⟨units, hunits, h⟩ := bind_eq_ok.mp h
      obtain ⟨tries, -, h⟩ := bind_eq_ok.mp h
      cases h
      exact ⟨rfl, hunits⟩

theorem place?_layOutAll (a : Assembler) (switches : List PendingSwitch) (name : String) :
    (switches.foldl Assembler.layOut a).place? name = a.place? name := by
  induction switches generalizing a with
  | nil => rfl
  | cons w rest ih => rw [List.foldl_cons, ih, Assembler.place?, Assembler.labels_layOut, Assembler.place?]

open Assembler in
theorem assemble_renders {out : Assembled} (hvalid : ∀ s ∈ program, s.Valid pool) (h : assemble program = .ok out) :
    Consecutive 0 (positions program) ∧ (∀ p ∈ positions program, p.2.Fits) ∧
      (program.foldl add empty).pc = width (cellsOf (positions program)) ∧
        ∃ d, Renders (positions program) d out.units := by
  have hunary : ∀ s ∈ program, s.UnaryFrom := fun s hs n x y heq => by
    have hv := hvalid s hs
    rw [heq] at hv
    exact hv.1
  obtain ⟨hfault, hpatch⟩ := finish_ok h
  obtain ⟨hgrows, hfits, hconsecutive⟩ := addAll_grows hunary hfault
  have hswitches : (program.foldl add empty).switches = switchesOf (positions program) := addAll_switches empty program
  have hempty : Spells Assembler.empty [] 0 := ⟨rfl, rfl⟩
  have hspells : Spells (program.foldl add empty) (cellsOf (positions program)) 0 := hgrows.spells hempty
  obtain ⟨t, hall, htables, -⟩ := layOutAll_spells (switchesOf (positions program)) hspells hconsecutive.placed
    (fun w hw => table_mem_cellsOf hw) hconsecutive.distinct
  have hsound : ∀ c ∈ allCells (positions program), c.Sound := by
    rw [allCells, List.forall_mem_append]
    refine ⟨fun c hc => ?_, tables_sound (length_targets fun p hp => hvalid _ (mem_of_mem_positions hp)) _⟩
    obtain ⟨p, hp, hc⟩ := List.mem_flatMap.mp hc
    exact Stmt.cells_sound (hvalid _ (mem_of_mem_positions hp)) (hfits p hp) c hc
  rw [hswitches] at hpatch
  rw [hall.fixups] at hpatch
  obtain ⟨hunits, hreached⟩ := patch_cells hsound (show _ = [] ++ _ from hall.units) hpatch
  refine ⟨hconsecutive, hfits, hspells.pc, _, hunits, hsound, ?_, htables⟩
  have hplace : Assembler.place? ((switchesOf (positions program)).foldl layOut (program.foldl add empty))
      = labelPlace? (positions program) := by
    funext name
    rw [place?_layOutAll, addAll_labels hunary hfault]
    rfl
  rw [← hplace]
  exact hreached

end JavaLift.Dalvik
