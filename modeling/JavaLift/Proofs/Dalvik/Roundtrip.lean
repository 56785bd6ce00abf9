import JavaLift.Proofs.Dalvik.Meaning

namespace JavaLift.Dalvik

variable {pool : Pool} {place? : String → Option Nat} {code : Code} {d : Distances} {pc : Nat} {s : Stmt}

namespace Stmt

def isCall : Stmt → Bool
  | .invoke .. | .invokeRange .. => true
  | _ => false

/-- Where the result of the call before is moved. -/
def result? : Stmt → Option (ValueKind × Nat)
  | .moveResult kind reg => some (kind, reg)
  | _ => none

end Stmt

def resultAfter (lines : List (Nat × Stmt)) : Option (ValueKind × Nat) :=
  (lines.find? fun p => !p.2.silent).bind (·.2.result?)

/-- The lines that are instructions of their own, with the moves of their results. -/
def instructionLines : List (Nat × Stmt) → List (Nat × Stmt × Option (ValueKind × Nat))
  | [] => []
  | (pc, s) :: rest =>
    if s.silent ∨ s.result?.isSome then instructionLines rest else (pc, s, resultAfter rest) :: instructionLines rest

/-- The result of a call is moved by the instruction after the call or not at all. -/
def ResultsFollow (afterCall : Bool) : List Stmt → Prop
  | [] => True
  | s :: rest =>
    (s.result?.isSome → afterCall = true) ∧ ResultsFollow (if s.silent then afterCall else s.isCall) rest

def withResult (result : Option (ValueKind × Nat)) : List Insn → List Insn
  | [] => []
  | i :: before => match result, resultType? i with
    | some (kind, reg), some type =>
      { i with result := some { Register.typed reg type with wide := type.isWide || kind == .wide } } :: before
    | _, _ => i :: before

@[simp] theorem withResult_none (done : List Insn) : withResult none done = done := by cases done <;> rfl

structure LegibleFrom (code : Code) (d : Distances) (place? : String → Option Nat) (pos : Nat)
    (lines : List (Nat × Stmt)) : Prop where
  consecutive : Consecutive pos lines
  cells : HasAt code pos (spell d (cellsOf lines))
  reached : ∀ c ∈ cellsOf lines, c.Reached place? d
  tables : ∀ w ∈ switchesOf lines,
    (∃ start, TableAt code d w start) ∧ ∀ l ∈ w.targets, Leads place? d 32 w.pc l
  inside : pos + width (cellsOf lines) ≤ code.size
  size : code.size ≤ 2 ^ 31

theorem Stmt.width_pos (hvalid : s.Valid pool) (hloud : s.silent = false) (pc : Nat) : 0 < width (s.cells pc) := by
  rcases form_cases hvalid pc with hsilent | ⟨l, rfl⟩ | ⟨o, aa, rest, hform⟩
  · rw [hloud] at hsilent
    cases hsilent
  · exact Nat.one_pos
  · rw [cells_of_form hform, width_cons, Cell.size_unit]
    exact Nat.add_pos_left Nat.one_pos _

variable {pos : Nat} {lines : List (Nat × Stmt)}

theorem LegibleFrom.uncons (h : LegibleFrom code d place? pos ((pc, s) :: lines)) (hvalid : s.Valid pool) :
    pc = pos ∧ (s.silent = false → Legible code d place? pos s) ∧
      LegibleFrom code d place? (pos + width (s.cells pos)) lines := by
  obtain ⟨⟨rfl, hconsecutive⟩, hcells, hreached, htables, hinside, hsize⟩ := h
  rw [cellsOf_cons, spell_append] at hcells
  rw [cellsOf_cons, List.forall_mem_append] at hreached
  rw [cellsOf_cons, width_append] at hinside
  rw [switchesOf_cons, List.forall_mem_append] at htables
  obtain ⟨hhead, hrest⟩ := hcells.append
  rw [length_spell] at hrest
  refine ⟨rfl, fun hloud => ?_, hconsecutive, hrest, hreached.2, htables.2, by omega, hsize⟩
  have hpos := Stmt.width_pos hvalid hloud pc
  refine ⟨hhead, hreached.1, fun w hw => ?_, by omega, hsize⟩
  have htable := htables.1 w (Option.mem_toList.mpr hw)
  rw [(Stmt.table_mem hw).1] at htable
  exact htable

theorem resultAfter_cons (pc : Nat) (s : Stmt) (lines : List (Nat × Stmt)) :
    resultAfter ((pc, s) :: lines) = if s.silent then resultAfter lines else s.result? := by
  cases h : s.silent <;> simp [resultAfter, h]

theorem resultAfter_eq_none (h : ResultsFollow false (lines.map (·.2))) : resultAfter lines = none := by
  induction lines with
  | nil => rfl
  | cons p rest ih =>
      obtain ⟨pc, s⟩ := p
      obtain ⟨hresult, hrest⟩ := h
      rw [resultAfter_cons]
      cases hsilent : s.silent with
      | true =>
          rw [hsilent] at hrest
          exact ih hrest
      | false =>
          rw [if_neg Bool.false_ne_true]
          exact Option.not_isSome_iff_eq_none.mp fun hsome => Bool.false_ne_true (hresult hsome)

/-- The instruction before may be a call whose result is still to be moved. -/
def CallWaits (afterCall : Bool) (done : List Insn) : Prop :=
  afterCall = true → ∃ pc kind m regs before, done = call pc kind m regs none :: before

/-- The instruction of a line, with the result that is moved behind it. -/
def StandsFor (pool : Pool) (place? : String → Option Nat) : Nat × Stmt × Option (ValueKind × Nat) → Insn → Prop
  | (pc, s, result), i => s.insn? pool place? pc result = some i

theorem addItem_moveResult {done : List Insn} (h : CallWaits true done) (pc : Nat) (kind : ValueKind) (reg : Nat) :
    addItem done pc (.moveResult reg (kind == .wide)) = .ok (withResult (some (kind, reg)) done) := by
  obtain ⟨pc', kind', m, regs, before, rfl⟩ := h rfl
  rfl

theorem call_insn {i : Insn} (hcall : s.isCall = true) (h : s.insn? pool place? pc none = some i) :
    ∃ kind m regs, i = call pc kind m regs none ∧
      ∀ result, s.insn? pool place? pc result = some (call pc kind m regs result) := by
  cases s with
  | invoke | invokeRange =>
      obtain ⟨m, hm, rfl⟩ := Option.map_eq_some_iff.mp h
      exact ⟨_, m, _, rfl, fun result => by simp only [Stmt.insn?, hm, Option.map_some]⟩
  | _ => cases hcall

theorem withResult_call (pc : Nat) (kind : InvokeKind) (m : MethodRef) (regs : List Nat)
    (result : Option (ValueKind × Nat)) (before : List Insn) :
    withResult result (call pc kind m regs none :: before) = call pc kind m regs result :: before := by
  cases result <;> rfl

theorem Stmt.item?_of_result {kind : ValueKind} {reg : Nat} {item : Item} (h : s.result? = some (kind, reg))
    (hitem : s.item? pool place? pc = some item) : item = .moveResult reg (kind == .wide) := by
  cases s with
  | moveResult =>
      cases h
      exact (Option.some.inj hitem).symm
  | _ => cases h

theorem Stmt.item?_of_none (h : s.result? = none) :
    s.item? pool place? pc = (s.insn? pool place? pc none).map .insn := by
  cases s with
  | moveResult => cases h
  | _ => rfl

theorem Stmt.isCall_of_result {r : ValueKind × Nat} (h : s.result? = some r) : s.isCall = false := by
  cases s with
  | moveResult => rfl
  | _ => cases h

/-- An instruction that is no call has no result to be moved; one that is takes it from the lines behind it. -/
theorem exists_standsFor {result : Option (ValueKind × Nat)} {i : Insn} (h : s.insn? pool place? pc none = some i)
    (hresult : s.isCall = false → result = none) (done : List Insn) :
    CallWaits s.isCall (i :: done) ∧
      ∃ i', StandsFor pool place? (pc, s, result) i' ∧ withResult result (i :: done) = i' :: done := by
  cases hcall : s.isCall with
  | true =>
      obtain ⟨kind, m, regs, rfl, hinsn⟩ := call_insn hcall h
      exact ⟨fun _ => ⟨pc, kind, m, regs, done, rfl⟩, _, hinsn result, withResult_call ..⟩
  | false =>
      rw [hresult hcall]
      exact ⟨nofun, i, h, withResult_none _⟩

theorem decodeFrom_lines (h : LegibleFrom code d place? pos lines) (hvalid : ∀ p ∈ lines, p.2.Valid pool)
    (hfits : ∀ p ∈ lines, p.2.Fits) {afterCall : Bool} (hfollow : ResultsFollow afterCall (lines.map (·.2)))
    {done : List Insn} (hdone : CallWaits afterCall done) :
    ∃ insns, List.Forall₂ (StandsFor pool place?) (instructionLines lines) insns ∧
      decodeFrom code pool done pos = decodeFrom code pool
        (insns.reverse ++ withResult (resultAfter lines) done) (pos + width (cellsOf lines)) := by
  induction lines generalizing pos afterCall done with
  | nil => exact ⟨[], .nil, by simp [resultAfter]⟩
  | cons p rest ih =>
      obtain ⟨pc, s⟩ := p
      rw [List.forall_mem_cons] at hvalid hfits
      obtain ⟨rfl, hlegible, hrest⟩ := h.uncons hvalid.1
      obtain ⟨hresult, hfollow⟩ := hfollow
      rw [cellsOf_cons, width_append, ← Nat.add_assoc, resultAfter_cons]
      cases hsilent : s.silent with
      | true =>
          rw [hsilent] at hfollow
          obtain ⟨insns, hstands, hdecode⟩ := ih hrest hvalid.2 hfits.2 hfollow hdone
          rw [Stmt.cells_of_silent hsilent] at hdecode ⊢
          exact ⟨insns, by simpa [instructionLines, hsilent] using hstands, hdecode⟩
      | false =>
          rw [hsilent] at hfollow
          obtain ⟨item, hitem, hdecode⟩ := decodeAt_line (hlegible hsilent) hvalid.1 hfits.1 hsilent
          have hpos : 0 < width (s.cells pc) := Stmt.width_pos hvalid.1 hsilent pc
          have hinside := h.inside
          rw [cellsOf_cons, width_append] at hinside
          have hstep {done' : List Insn} (hadd : addItem done pc item = .ok done') :
              decodeFrom code pool done pc = decodeFrom code pool done' (pc + width (s.cells pc)) := by
            rw [decodeFrom_step (by omega) hdecode hadd]
            congr 1
            omega
          cases hmoved : s.result? with
          | some r =>
              obtain ⟨kind, reg⟩ := r
              have hitem' : item = .moveResult reg (kind == .wide) := Stmt.item?_of_result hmoved hitem
              subst hitem'
              have hcall : afterCall = true := hresult (by rw [hmoved]; rfl)
              rw [Stmt.isCall_of_result hmoved] at hfollow
              rw [hcall] at hdone
              have hwaits : CallWaits false (withResult (some (kind, reg)) done) := nofun
              obtain ⟨insns, hstands, hdecode⟩ := ih hrest hvalid.2 hfits.2 hfollow hwaits
              rw [resultAfter_eq_none hfollow, withResult_none] at hdecode
              refine ⟨insns, by simpa [instructionLines, hmoved] using hstands, ?_⟩
              exact (hstep (addItem_moveResult hdone pc kind reg)).trans hdecode
          | none =>
              obtain ⟨i, hi, rfl⟩ := Option.map_eq_some_iff.mp ((Stmt.item?_of_none hmoved).symm.trans hitem)
              have hnone : s.isCall = false → resultAfter rest = none := fun hcall => by
                rw [hcall] at hfollow
                exact resultAfter_eq_none hfollow
              obtain ⟨hwaits, i', hstandsFor, htaken⟩ := exists_standsFor hi hnone done
              obtain ⟨insns, hstands, hdecode⟩ := ih hrest hvalid.2 hfits.2 hfollow hwaits
              refine ⟨i' :: insns, by simpa [instructionLines, hsilent, hmoved] using ⟨hstandsFor, hstands⟩, ?_⟩
              rw [hstep rfl, hdecode, htaken]
              simp

theorem mem_tablesFrom {switches : List PendingSwitch} {w : PendingSwitch} {c : Cell} (hw : w ∈ switches)
    (hc : c ∈ w.cells) (pos : Nat) : c ∈ tablesFrom pos switches := by
  induction switches generalizing pos with
  | nil => cases hw
  | cons w' rest ih =>
      rw [tablesFrom, List.mem_append, List.mem_append]
      rcases List.mem_cons.mp hw with rfl | hw
      · exact .inl (.inr hc)
      · exact .inr (ih hw _)

theorem matched_of_mem {w : PendingSwitch} (h : w ∈ switchesOf lines) : w.Matched := by
  obtain ⟨⟨pc, s⟩, -, hs⟩ := List.mem_filterMap.mp h
  cases s with
  | packedSwitch =>
      cases hs
      nofun
  | sparseSwitch =>
      cases hs
      intro keys hkeys
      cases hkeys
      simp
  | _ => cases hs

/-- The code that a program is rendered as has its lines, and behind them the tables. -/
theorem Renders.legible {units : Array UInt16} (h : Renders lines d units) (hconsecutive : Consecutive 0 lines)
    (hsize : units.size ≤ 2 ^ 31) :
    LegibleFrom units d (labelPlace? lines) 0 lines ∧ TablesAt units d (width (cellsOf lines)) (switchesOf lines) := by
  have hcode := hasAt_spell h.units h.sound
  have hall : units.size = width (allCells lines) := by
    rw [← Array.length_toList, h.units, List.length_map, length_spell]
  have hreached := h.reached
  rw [allCells, spell_append] at hcode
  rw [allCells, width_append] at hall
  rw [allCells, List.forall_mem_append] at hreached
  obtain ⟨hlines, htables⟩ := hcode.append
  rw [length_spell, Nat.zero_add] at htables
  have htablesAt : TablesAt units d (width (cellsOf lines)) (switchesOf lines) := ⟨htables, h.tables, hall.symm⟩
  have hleads : ∀ w ∈ switchesOf lines, ∀ l ∈ w.targets, Leads (labelPlace? lines) d 32 w.pc l := by
    intro w hw l hl
    have hcell : .word w.pc l ∈ w.cells := List.mem_append_right _ (List.mem_map_of_mem hl)
    exact hreached.2 _ (mem_tablesFrom hw hcell _)
  refine ⟨⟨hconsecutive, hlines, hreached.1, ?_, by omega, hsize⟩, htablesAt⟩
  exact fun w hw => ⟨htablesAt.exists_tableAt w hw, hleads w hw⟩

/-- A program that is assembled and decoded again gives one instruction for each of its own, at the position where that
was written and with the same operation, registers and numbers. A jump leads to the position of its label. What follows
is padding of the tables. The distances to the tables have 32 bits, which bounds the size of the code. -/
theorem decode_assemble {program : List Stmt} {out : Assembled} (hvalid : ∀ s ∈ program, s.Valid pool)
    (hfollow : ResultsFollow false program) (h : assemble program = .ok out) (hsize : out.units.size ≤ 2 ^ 31) :
    ∃ insns padding, decodeAll out.units pool = .ok (insns ++ padding) ∧
      List.Forall₂ (StandsFor pool (labelPlace? (positions program))) (instructionLines (positions program)) insns ∧
      ∀ i ∈ padding, ∃ place, i = written place .nop [] none ∧ (program.foldl Assembler.add .empty).pc ≤ place ∧
        place % 2 = 1 := by
  obtain ⟨hconsecutive, hfits, hend, d, hrenders⟩ := assemble_renders hvalid h
  obtain ⟨hlegible, htables⟩ := hrenders.legible hconsecutive hsize
  have hlines : (positions program).map (·.2) = program := map_positions ..
  have hfollow' : ResultsFollow false ((positions program).map (·.2)) := by rwa [hlines]
  have hwaits : CallWaits false [] := nofun
  obtain ⟨insns, hstands, hdecode⟩ := decodeFrom_lines hlegible
    (fun p hp => hvalid _ (mem_of_mem_positions hp)) hfits hfollow' hwaits
  obtain ⟨padding, htail, hpadding⟩ := htables.decodeFrom (fun w hw => matched_of_mem hw) pool insns.reverse
  rw [resultAfter_eq_none hfollow', withResult_none, List.append_nil, Nat.zero_add, htail,
    List.reverse_reverse] at hdecode
  rw [← hend] at hpadding
  exact ⟨insns, padding, hdecode, hstands, hpadding⟩

/-- A loop on the result of a call, and a switch behind it. -/
def loop : List Stmt := [
  .const 0 3,
  .label "again",
  .invoke .static 0 [0],
  .moveResult .single 0,
  .ifZero .ne 0 "again",
  .packedSwitch 0 7 ["again", "end"],
  .label "end",
  .returnVoid]

def loopPool : Pool := .tables ⟨#[], #[], #[], #[⟨"demo.Loop", "next", [.int], .int⟩]⟩

def loopUnits : Array UInt16 :=
  #[0x3012, 0x1071, 0, 0, 0x000a, 0x0039, 0xfffc, 0x002b, 5, 0, 0x000e, 0, 0x0100, 2, 7, 0, 0xfffa, 0xffff, 3, 0]

theorem decode_assemble_loop : ∃ insns padding, decodeAll loopUnits loopPool = .ok (insns ++ padding) ∧
    List.Forall₂ (StandsFor loopPool (labelPlace? (positions loop))) (instructionLines (positions loop)) insns ∧
    ∀ i ∈ padding, ∃ place, i = written place .nop [] none ∧ (loop.foldl Assembler.add .empty).pc ≤ place ∧
      place % 2 = 1 := by
  have hvalid : ∀ s ∈ loop, s.Valid loopPool := by
    simp only [loop, List.forall_mem_cons, Stmt.Valid, FitsIn]
    exact ⟨by decide, trivial, ⟨by decide, by decide, _, rfl, by decide⟩, trivial, trivial, by decide, trivial, trivial,
      List.forall_mem_nil _⟩
  have hfollow : ResultsFollow false loop := by simp [loop, ResultsFollow, Stmt.result?, Stmt.silent, Stmt.isCall]
  have hassemble : assemble loop = .ok ⟨loopUnits, [], []⟩ := rfl
  exact decode_assemble hvalid hfollow hassemble (by decide)

end JavaLift.Dalvik
