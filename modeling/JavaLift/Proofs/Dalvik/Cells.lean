import JavaLift.Dalvik.Assembler
import JavaLift.Proofs.Dalvik.Opcodes
import JavaLift.Proofs.Except

/-!
The code of a program before the distances in it are known: a list of cells, each of which is a unit or the place of a
distance. Assembling writes the cells with zeros in these places, and finishing fills all of them in.
-/

namespace JavaLift.Dalvik

/-- A unit, or the place of a distance: from the instruction at `pc` to a label, in the high byte of an instruction,
in a unit or in two, or from the switch at `pc` to its table. -/
inductive Cell where
  | unit (n : Nat)
  | near (opcode pc : Nat) (label : String)
  | half (pc : Nat) (label : String)
  | word (pc : Nat) (label : String)
  | table (pc : Nat)

structure Distances where
  jump : Nat → String → Int
  table : Nat → Int

namespace Cell

def size : Cell → Nat
  | .word .. | .table _ => 2
  | _ => 1

def units (d : Distances) : Cell → List Nat
  | .unit n => [n]
  | .near opcode pc label => [opcode + 256 * (d.jump pc label % 256).toNat]
  | .half pc label => [(d.jump pc label % 0x10000).toNat]
  | .word pc label => Assembler.wordUnits (d.jump pc label)
  | .table pc => Assembler.wordUnits (d.table pc)

def fixup? (place : Nat) : Cell → Option Fixup
  | .near _ pc label => some ⟨pc, place, label, .byte⟩
  | .half pc label => some ⟨pc, place, label, .unit⟩
  | .word pc label => some ⟨pc, place, label, .word⟩
  | .unit _ | .table _ => none

/-- The unit has sixteen bits, and the opcode beside a short distance eight. -/
def Sound : Cell → Prop
  | .unit n => n < 0x10000
  | .near opcode .. => opcode < 256
  | .half .. | .word .. | .table _ => True

@[simp] theorem size_unit (n : Nat) : (unit n).size = 1 := rfl

theorem length_units (d : Distances) (c : Cell) : (c.units d).length = c.size := by cases c <;> rfl

end Cell

def width (cs : List Cell) : Nat := (cs.map Cell.size).sum

def spell (d : Distances) (cs : List Cell) : List Nat := cs.flatMap (Cell.units d)

def fixupsFrom (place : Nat) : List Cell → List Fixup
  | [] => []
  | c :: cs => (c.fixup? place).toList ++ fixupsFrom (place + c.size) cs

variable {a b : Assembler} {c : Cell} {cs cs' : List Cell} {d : Distances} {t : Nat → Int}

@[simp] theorem width_nil : width [] = 0 := rfl

@[simp] theorem width_cons : width (c :: cs) = c.size + width cs := rfl

@[simp] theorem width_append : width (cs ++ cs') = width cs + width cs' := by simp [width]

@[simp] theorem spell_nil : spell d [] = [] := rfl

@[simp] theorem spell_cons : spell d (c :: cs) = c.units d ++ spell d cs := rfl

@[simp] theorem spell_append : spell d (cs ++ cs') = spell d cs ++ spell d cs' := List.flatMap_append

@[simp] theorem length_spell : (spell d cs).length = width cs := by
  induction cs with
  | nil => rfl
  | cons c cs ih => rw [spell_cons, List.length_append, ih, Cell.length_units, width_cons]

theorem fixupsFrom_append (place : Nat) :
    fixupsFrom place (cs ++ cs') = fixupsFrom place cs ++ fixupsFrom (place + width cs) cs' := by
  induction cs generalizing place with
  | nil => rfl
  | cons c cs ih => simp only [List.cons_append, fixupsFrom, ih, width_cons, List.append_assoc, Nat.add_assoc]

def blank (t : Nat → Int) : Distances := ⟨fun _ _ => 0, t⟩

structure Spells (a : Assembler) (cs : List Cell) (t : Nat → Int) : Prop where
  units : a.units.toList = (spell (blank t) cs).map UInt16.ofNat
  fixups : a.fixups = fixupsFrom 0 cs

theorem Spells.pc (h : Spells a cs t) : a.pc = width cs := by
  rw [Assembler.pc, ← Array.length_toList, h.units, List.length_map, length_spell]

/-- Cells have been added; if nothing has failed since, nothing had before. -/
structure Grows (a b : Assembler) (cs : List Cell) : Prop where
  units : b.units.toList = a.units.toList ++ (spell (blank 0) cs).map UInt16.ofNat
  fixups : b.fixups = a.fixups ++ fixupsFrom a.pc cs
  fault : b.fault = none → a.fault = none

namespace Grows

theorem refl (a : Assembler) : Grows a a [] := ⟨by simp, by simp [fixupsFrom], id⟩

theorem pc (h : Grows a b cs) : b.pc = a.pc + width cs := by
  rw [Assembler.pc, ← Array.length_toList, h.units, List.length_append, List.length_map, length_spell,
    Array.length_toList]
  rfl

theorem trans {c : Assembler} (h : Grows a b cs) (h' : Grows b c cs') : Grows a c (cs ++ cs') := by
  refine ⟨?_, ?_, h.fault ∘ h'.fault⟩
  · rw [h'.units, h.units, List.append_assoc, spell_append, List.map_append]
  · rw [h'.fixups, h.fixups, h.pc, List.append_assoc, fixupsFrom_append]

theorem spells (h : Grows a b cs') (ha : Spells a cs 0) : Spells b (cs ++ cs') 0 := by
  constructor
  · rw [h.units, ha.units, spell_append, List.map_append]
  · rw [h.fixups, ha.fixups, ha.pc, fixupsFrom_append, Nat.zero_add]

end Grows

namespace Assembler

theorem emit_grows (a : Assembler) (u : Nat) : Grows a (a.emit u) [.unit u] :=
  ⟨by simp [emit, Cell.units], by simp [emit, fixupsFrom, Cell.fixup?], id⟩

theorem emitAll_grows (a : Assembler) (us : List Nat) : Grows a (a.emitAll us) (us.map .unit) := by
  induction us generalizing a with
  | nil => exact .refl a
  | cons u us ih => exact (emit_grows a u).trans (ih (a.emit u))

theorem fit_grows (a : Assembler) (bits r : Nat) : Grows a (a.fit bits r) [] := by
  unfold fit
  split
  · exact .refl a
  · refine ⟨by simp [fail], by simp [fail, fixupsFrom], fun h => ?_⟩
    cases hf : a.fault <;> simp_all [fail]

theorem lt_of_fit {bits r : Nat} (h : (a.fit bits r).fault = none) : r < 2 ^ bits := by
  rw [fit, Nat.one_shiftLeft] at h
  by_contra hr
  rw [if_neg hr] at h
  cases hf : a.fault <;> simp_all [fail]

theorem byteForm_grows {opcode r : Nat} (h : (a.byteForm opcode r).fault = none) :
    r < 256 ∧ Grows a (a.byteForm opcode r) [.unit (opcode + 256 * r)] := by
  have hr : r < 256 := lt_of_fit h
  have hgrows := (fit_grows a 8 r).trans (emit_grows (a.fit 8 r) (opcode + 256 * (r % 256)))
  rw [Nat.mod_eq_of_lt hr] at hgrows
  refine ⟨hr, ?_⟩
  rw [byteForm, Nat.mod_eq_of_lt hr]
  exact hgrows

theorem nibbleForm_grows {opcode low high : Nat} (h : (a.nibbleForm opcode low high).fault = none) :
    low < 16 ∧ high < 16 ∧ Grows a (a.nibbleForm opcode low high) [.unit (opcode + 256 * (low + 16 * high))] := by
  have hhigh : high < 16 := lt_of_fit h
  have hlow : low < 16 := lt_of_fit ((fit_grows _ 4 high).fault h)
  have hunit : opcode + 256 * (low % 16) + 4096 * (high % 16) = opcode + 256 * (low + 16 * high) := by omega
  refine ⟨hlow, hhigh, ?_⟩
  rw [nibbleForm, hunit]
  exact ((fit_grows a 4 low).trans (fit_grows _ 4 high)).trans (emit_grows _ _)

theorem byteForm_emitAll_grows {opcode r : Nat} (us : List Nat)
    (h : ((a.byteForm opcode r).emitAll us).fault = none) :
    r < 256 ∧ Grows a ((a.byteForm opcode r).emitAll us) (.unit (opcode + 256 * r) :: us.map .unit) := by
  obtain ⟨hr, hgrows⟩ := byteForm_grows ((emitAll_grows _ us).fault h)
  exact ⟨hr, hgrows.trans (emitAll_grows _ us)⟩

theorem byteForm_emit_grows {opcode r u : Nat} (h : ((a.byteForm opcode r).emit u).fault = none) :
    r < 256 ∧ Grows a ((a.byteForm opcode r).emit u) [.unit (opcode + 256 * r), .unit u] :=
  byteForm_emitAll_grows [u] h

theorem nibbleForm_emit_grows {opcode low high u : Nat}
    (h : ((a.nibbleForm opcode low high).emit u).fault = none) :
    low < 16 ∧ high < 16 ∧
      Grows a ((a.nibbleForm opcode low high).emit u) [.unit (opcode + 256 * (low + 16 * high)), .unit u] := by
  obtain ⟨hlow, hhigh, hgrows⟩ := nibbleForm_grows ((emit_grows _ u).fault h)
  exact ⟨hlow, hhigh, hgrows.trans (emit_grows _ u)⟩

theorem tripleForm_grows {opcode r low high : Nat} (h : (a.tripleForm opcode r low high).fault = none) :
    r < 256 ∧ low < 256 ∧ high < 256 ∧
      Grows a (a.tripleForm opcode r low high) [.unit (opcode + 256 * r), .unit (low + 256 * high)] := by
  obtain ⟨hr, hgrows⟩ := byteForm_grows (a := (a.fit 8 low).fit 8 high) h
  have hhigh : high < 256 := lt_of_fit (hgrows.fault h)
  have hlow : low < 256 := lt_of_fit ((fit_grows _ 8 high).fault (hgrows.fault h))
  have hunit : low % 256 + 256 * (high % 256) = low + 256 * high := by omega
  refine ⟨hr, hlow, hhigh, ?_⟩
  rw [tripleForm, hunit]
  exact (((fit_grows a 8 low).trans (fit_grows _ 8 high)).trans hgrows).trans (emit_grows _ _)

theorem fitAll_grows (a : Assembler) (bits : Nat) (regs : List Nat) :
    Grows a (regs.foldl (fun b r => b.fit bits r) a) [] := by
  induction regs generalizing a with
  | nil => exact .refl a
  | cons r regs ih => exact (fit_grows a bits r).trans (ih (a.fit bits r))

theorem lt_of_fitAll {bits : Nat} {regs : List Nat} (h : (regs.foldl (fun b r => b.fit bits r) a).fault = none) :
    ∀ r ∈ regs, r < 2 ^ bits := by
  induction regs generalizing a with
  | nil => nofun
  | cons r regs ih =>
      rw [List.forall_mem_cons]
      exact ⟨lt_of_fit ((fitAll_grows (a.fit bits r) bits regs).fault h), ih h⟩

theorem nibble_lt {regs : List Nat} (h : ∀ r ∈ regs, r < 16) (i : Nat) : (regs[i]?).getD 0 < 16 := by
  cases hi : regs[i]? with
  | none => exact Nat.zero_lt_succ 15
  | some r => exact h r (List.mem_of_getElem? hi)

/-- What was written last becomes the place of a distance that is not known yet. -/
theorem jump_last {last : List Cell} {pc : Nat} {label : String} {reach : Reach} (h : Grows a b (cs ++ last))
    (hunits : spell (blank 0) last = c.units (blank 0)) (hlast : ∀ place, fixupsFrom place last = [])
    (hfixup : ∀ place, c.fixup? place = some ⟨pc, place, label, reach⟩) :
    Grows a (b.jump pc (a.pc + width cs) label reach) (cs ++ [c]) := by
  refine ⟨?_, ?_, h.fault⟩
  · have hwritten := h.units
    rw [spell_append, hunits] at hwritten
    rw [spell_append, spell_cons, spell_nil, List.append_nil]
    exact hwritten
  · have hfixups := h.fixups
    rw [fixupsFrom_append, hlast, List.append_nil] at hfixups
    rw [fixupsFrom_append, ← List.append_assoc, ← hfixups, fixupsFrom, hfixup]
    rfl

theorem jump_half (h : Grows a b (cs ++ [.unit 0])) (pc : Nat) (label : String) :
    Grows a (b.jump pc (a.pc + width cs) label .unit) (cs ++ [.half pc label]) :=
  jump_last h rfl (fun _ => rfl) fun _ => rfl

theorem jump_word (h : Grows a b (cs ++ [.unit 0, .unit 0])) (pc : Nat) (label : String) :
    Grows a (b.jump pc (a.pc + width cs) label .word) (cs ++ [.word pc label]) :=
  jump_last h rfl (fun _ => rfl) fun _ => rfl

end Assembler

namespace Stmt

/-- The opcode of an instruction, the other byte of its first unit, and the cells after that. -/
def form? (pc : Nat) : Stmt → Option (Opcode × Nat × List Cell)
  | .raw _ | .label _ | .line _ | .tryRange .. | .goto8 _ => none
  | .nop => some (.nop, 0, [])
  | .move kind dst src => some (.move kind .nibbles, dst + 16 * src, [])
  | .moveResult kind dst => some (.moveResult kind, dst, [])
  | .moveException dst => some (.moveException, dst, [])
  | .returnVoid => some (.returnVoid, 0, [])
  | .ret kind reg => some (.ret kind, reg, [])
  | .const dst value =>
    if -8 ≤ value ∧ value < 8 ∧ dst < 16 then some (.const4, dst + 16 * (value % 16).toNat, [])
    else if -0x8000 ≤ value ∧ value < 0x8000 then some (.const16, dst, [.unit (value % 0x10000).toNat])
    else if value % 0x10000 = 0 then some (.constHigh16, dst, [.unit (value / 0x10000 % 0x10000).toNat])
    else some (.const32, dst, (Assembler.wordUnits value).map .unit)
  | .constWide dst value =>
    if -0x8000 ≤ value ∧ value < 0x8000 then some (.constWide16, dst, [.unit (value % 0x10000).toNat])
    else if -0x80000000 ≤ value ∧ value < 0x80000000 then
      some (.constWide32, dst, (Assembler.wordUnits value).map .unit)
    else some (.constWide64, dst, (Assembler.wordUnits value ++ Assembler.wordUnits (value / 0x100000000)).map .unit)
  | .constString dst index => some (.constString, dst, [.unit index])
  | .constClass dst index => some (.constClass, dst, [.unit index])
  | .monitorEnter reg => some (.monitorEnter, reg, [])
  | .monitorExit reg => some (.monitorExit, reg, [])
  | .checkCast reg index => some (.checkCast, reg, [.unit index])
  | .instanceOf dst src index => some (.instanceOf, dst + 16 * src, [.unit index])
  | .arrayLength dst array => some (.arrayLength, dst + 16 * array, [])
  | .newInstance dst index => some (.newInstance, dst, [.unit index])
  | .newArray dst size index => some (.newArray, dst + 16 * size, [.unit index])
  | .throw reg => some (.throw, reg, [])
  | .goto16 l => some (.goto16, 0, [.half pc l])
  | .goto32 l => some (.goto32, 0, [.word pc l])
  | .ifCmp cmp x y l => some (.ifCmp cmp, x + 16 * y, [.half pc l])
  | .ifZero cmp reg l => some (.ifZero cmp, reg, [.half pc l])
  | .packedSwitch reg _ _ => some (.packedSwitch, reg, [.table pc])
  | .sparseSwitch reg _ => some (.sparseSwitch, reg, [.table pc])
  | .compare variant dst x y => some (.compare (.ofVariant variant), dst, [.unit (x + 256 * y)])
  | .arrayGet variant dst array index => some (.arrayGet (.ofVariant variant), dst, [.unit (array + 256 * index)])
  | .arrayPut variant src array index => some (.arrayPut (.ofVariant variant), src, [.unit (array + 256 * index)])
  | .instanceGet kind dst object index => some (.instanceGet kind, dst + 16 * object, [.unit index])
  | .instancePut kind src object index => some (.instancePut kind, src + 16 * object, [.unit index])
  | .staticGet kind dst index => some (.staticGet kind, dst, [.unit index])
  | .staticPut kind src index => some (.staticPut kind, src, [.unit index])
  | .invoke kind index regs =>
    let reg (i : Nat) := ((regs.take 5)[i]?).getD 0
    some (.invoke kind false, reg 4 + 16 * (regs.take 5).length,
      [.unit index, .unit (reg 0 + 16 * reg 1 + 256 * reg 2 + 4096 * reg 3)])
  | .invokeRange kind index first count => some (.invoke kind true, count, [.unit index, .unit first])
  | .unary opcode dst src => some (.unary (opcode - 0x7b), dst + 16 * src, [])
  | .binary op dst x y => some (.binary op .int, dst, [.unit (x + 256 * y)])
  | .binaryTwo op dst src => some (.binaryTwo op .int, dst + 16 * src, [])
  | .binaryLiteral variant dst src value =>
    some (.binaryLiteral (Opcode.literalOp variant) false, dst, [.unit (src + 256 * (value % 256).toNat)])

def cells (pc : Nat) : Stmt → List Cell
  | .raw u => [.unit u]
  | .goto8 l => [.near Opcode.goto8.byte pc l]
  | s => match s.form? pc with
    | some (opcode, aa, rest) => .unit (opcode.byte + 256 * aa) :: rest
    | none => []

theorem cells_of_form {pc : Nat} {s : Stmt} {o : Opcode} {aa : Nat} {rest : List Cell}
    (h : s.form? pc = some (o, aa, rest)) : s.cells pc = .unit (o.byte + 256 * aa) :: rest := by
  cases s with
  | raw | goto8 => cases h
  | _ => simp only [cells, h]

def silent : Stmt → Bool
  | .label _ | .line _ | .tryRange .. => true
  | _ => false

theorem cells_of_silent {pc : Nat} {s : Stmt} (h : s.silent = true) : s.cells pc = [] := by
  cases s with
  | label | line | tryRange => rfl
  | _ => cases h

/-- The registers have as few bits as their places. -/
def Fits : Stmt → Prop
  | .move _ x y | .instanceOf x y _ | .arrayLength x y | .newArray x y _ | .ifCmp _ x y _ | .instanceGet _ x y _
  | .instancePut _ x y _ | .unary _ x y | .binaryTwo _ x y => x < 16 ∧ y < 16
  | .moveResult _ r | .moveException r | .ret _ r | .const r _ | .constWide r _ | .constString r _ | .constClass r _
  | .monitorEnter r | .monitorExit r | .checkCast r _ | .newInstance r _ | .throw r | .ifZero _ r _
  | .packedSwitch r _ _ | .sparseSwitch r _ | .staticGet _ r _ | .staticPut _ r _ => r < 256
  | .compare _ r x y | .arrayGet _ r x y | .arrayPut _ r x y | .binary _ r x y => r < 256 ∧ x < 256 ∧ y < 256
  | .binaryLiteral _ r x _ => r < 256 ∧ x < 256
  | .invoke _ _ regs => ∀ r ∈ regs.take 5, r < 16
  | _ => True

end Stmt

open Assembler in
theorem add_grows {s : Stmt} (hop : ∀ n x y, s = .unary n x y → 0x7b ≤ n) (h : (a.add s).fault = none) :
    s.Fits ∧ Grows a (a.add s) (s.cells a.pc) := by
  cases s with
  | raw u => exact ⟨trivial, emit_grows a u⟩
  | label name =>
      simp only [add] at h ⊢
      split
      · rename_i hdup
        rw [if_pos hdup] at h
        cases hf : a.fault <;> simp_all [fail]
      · exact ⟨trivial, by simp [Stmt.cells, Stmt.form?], by simp [Stmt.cells, Stmt.form?, fixupsFrom], id⟩
  | line | tryRange =>
      exact ⟨trivial, by simp [add, Stmt.cells, Stmt.form?], by simp [add, Stmt.cells, Stmt.form?, fixupsFrom], id⟩
  | nop => exact ⟨trivial, emit_grows a _⟩
  | returnVoid => exact ⟨trivial, emit_grows a _⟩
  | move | arrayLength | binaryTwo =>
      obtain ⟨hx, hy, hgrows⟩ := nibbleForm_grows h
      exact ⟨⟨hx, hy⟩, hgrows⟩
  | unary n x y =>
      obtain ⟨hx, hy, hgrows⟩ := nibbleForm_grows h
      have hn : 0x7b + (n - 0x7b) = n := Nat.add_sub_of_le (hop n x y rfl)
      refine ⟨⟨hx, hy⟩, ?_⟩
      change Grows a _ [.unit (0x7b + (n - 0x7b) + _)]
      rw [hn]
      exact hgrows
  | moveResult | moveException | ret | monitorEnter | monitorExit | throw =>
      obtain ⟨hr, hgrows⟩ := byteForm_grows h
      exact ⟨hr, hgrows⟩
  | const dst value =>
      simp only [add, Assembler.const, Stmt.cells, Stmt.form?] at h ⊢
      split at h
      · rename_i hsmall
        have hunit : 0x12 + 256 * dst + 4096 * (value % 16).toNat
            = 0x12 + 256 * (dst + 16 * (value % 16).toNat) := by omega
        simp only [if_pos hsmall, hunit]
        exact ⟨Nat.lt_trans hsmall.2.2 (by decide), emit_grows a _⟩
      · rename_i hbig
        simp only [if_neg hbig]
        split at h
        · rename_i hhalf
          simp only [if_pos hhalf]
          exact byteForm_emit_grows h
        · rename_i hhalf
          simp only [if_neg hhalf]
          split at h
          · rename_i hhigh
            simp only [if_pos hhigh]
            exact byteForm_emit_grows h
          · rename_i hhigh
            simp only [if_neg hhigh]
            exact byteForm_emitAll_grows _ h
  | constWide dst value =>
      simp only [add, Assembler.constWide, Stmt.cells, Stmt.form?] at h ⊢
      split at h
      · rename_i hhalf
        simp only [if_pos hhalf]
        exact byteForm_emit_grows h
      · rename_i hhalf
        simp only [if_neg hhalf]
        split at h
        · rename_i hword
          simp only [if_pos hword]
          exact byteForm_emitAll_grows _ h
        · rename_i hword
          simp only [if_neg hword]
          exact byteForm_emitAll_grows _ h
  | constString | constClass | checkCast | newInstance | staticGet | staticPut =>
      exact byteForm_emit_grows h
  | instanceOf | newArray | instanceGet | instancePut =>
      obtain ⟨hx, hy, hgrows⟩ := nibbleForm_emit_grows h
      exact ⟨⟨hx, hy⟩, hgrows⟩
  | goto8 label =>
      refine ⟨trivial, ?_, rfl, id⟩
      simp [add, jump, emit, Stmt.cells, Cell.units, blank, Opcode.byte]
  | goto16 label =>
      have hgrows : Grows a _ ([.unit Opcode.goto16.byte] ++ [.unit 0]) := emitAll_grows a [0x29, 0]
      exact ⟨trivial, jump_half hgrows a.pc label⟩
  | goto32 label =>
      have hgrows : Grows a _ ([.unit Opcode.goto32.byte] ++ [.unit 0, .unit 0]) :=
        emitAll_grows a [0x2a, 0, 0]
      exact ⟨trivial, jump_word hgrows a.pc label⟩
  | ifCmp cmp x y label =>
      obtain ⟨hx, hy, hgrows⟩ := nibbleForm_emit_grows h
      have hall : Grows a _ ([.unit _] ++ [.unit 0]) := hgrows
      exact ⟨⟨hx, hy⟩, jump_half hall a.pc label⟩
  | ifZero cmp r label =>
      obtain ⟨hr, hgrows⟩ := byteForm_emit_grows h
      have hall : Grows a _ ([.unit _] ++ [.unit 0]) := hgrows
      exact ⟨hr, jump_half hall a.pc label⟩
  | packedSwitch r first targets =>
      obtain ⟨hr, hgrows⟩ := byteForm_emitAll_grows [0, 0] h
      exact ⟨hr, hgrows.units, hgrows.fixups, hgrows.fault⟩
  | sparseSwitch r cases =>
      obtain ⟨hr, hgrows⟩ := byteForm_emitAll_grows [0, 0] h
      exact ⟨hr, hgrows.units, hgrows.fixups, hgrows.fault⟩
  | binary =>
      obtain ⟨hr, hx, hy, hgrows⟩ := tripleForm_grows h
      exact ⟨⟨hr, hx, hy⟩, hgrows⟩
  | compare variant =>
      obtain ⟨hr, hx, hy, hgrows⟩ := tripleForm_grows h
      refine ⟨⟨hr, hx, hy⟩, ?_⟩
      rw [Stmt.cells_of_form rfl, Opcode.byte, CompareKind.index_ofVariant]
      exact hgrows
  | arrayGet variant | arrayPut variant =>
      obtain ⟨hr, hx, hy, hgrows⟩ := tripleForm_grows h
      refine ⟨⟨hr, hx, hy⟩, ?_⟩
      rw [Stmt.cells_of_form rfl, Opcode.byte, ElementKind.index_ofVariant]
      exact hgrows
  | binaryLiteral variant dst src value =>
      obtain ⟨hr, hgrows⟩ := byteForm_emit_grows h
      have hsrc : src < 256 := lt_of_fit (hgrows.fault h)
      have hall := (fit_grows a 8 src).trans hgrows
      rw [Nat.mod_eq_of_lt hsrc] at hall
      refine ⟨⟨hr, hsrc⟩, ?_⟩
      rw [Stmt.cells_of_form rfl, Opcode.byte, Opcode.index_literalOp]
      simp only [add, Nat.mod_eq_of_lt hsrc]
      exact hall
  | invoke kind index regs =>
      have hregs : ∀ r ∈ regs.take 5, r < 16 := lt_of_fitAll ((emitAll_grows _ _).fault h)
      have hnibble (i : Nat) : ((regs.take 5)[i]?).getD 0 % 16 = ((regs.take 5)[i]?).getD 0 :=
        Nat.mod_eq_of_lt (nibble_lt hregs i)
      have hhead (x n : Nat) : 0x6e + kind.index + 256 * x + 4096 * n = 0x6e + kind.index + 256 * (x + 16 * n) := by
        omega
      refine ⟨hregs, ?_⟩
      simp only [add, Assembler.invoke, hnibble, hhead]
      exact (fitAll_grows a 4 (regs.take 5)).trans (emitAll_grows _ _)
  | invokeRange kind index first count => exact ⟨trivial, emitAll_grows a _⟩

end JavaLift.Dalvik
