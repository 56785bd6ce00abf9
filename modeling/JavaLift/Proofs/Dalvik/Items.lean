import JavaLift.Dalvik.Decoder
import JavaLift.Proofs.Except

namespace JavaLift

def Op.isTernary : Op → Bool
  | .ternary .. => true
  | _ => false

/-- The operation leaves a value for the instruction after it to move. -/
def Op.leavesResult : Op → Bool
  | .invoke .. | .filledNewArray _ => true
  | _ => false

namespace Insn

/-- An instruction as it stands in bytecode: none is in the place of an argument, and no value is chosen. -/
structure Unfolded (i : Insn) : Prop where
  op : i.op.isTernary = false
  args : ∀ a ∈ i.args, a.insn? = none

/-- An instruction as it is read by itself: a call has no result yet, and a conversion has its own. -/
def isFresh (i : Insn) : Bool :=
  match i.op, i.result with
  | .invoke .., some _ | .filledNewArray _, some _ | .cast .., none => false
  | _, _ => true

def unjoined (i : Insn) : Insn := if i.op.leavesResult then { i with result := none } else i

/-- The register that takes the result that was joined to the instruction. -/
def joined? (i : Insn) : Option Nat := if i.op.leavesResult then i.result.map (·.reg) else none

theorem isFresh_of_some {op : Op} (h : op.leavesResult = false) (args : List Arg) (r : Register) (pc : Nat) :
    (Insn.of op args (some r) pc).isFresh = true := by
  cases op with
  | invoke | filledNewArray => cases h
  | _ => rfl

theorem unjoined_of_isFresh {i : Insn} (h : i.isFresh = true) : i.unjoined = i ∧ i.joined? = none := by
  obtain ⟨⟨op, result, offset, line⟩, args⟩ := i
  cases op with
  | invoke | filledNewArray => cases result with
    | none => exact ⟨rfl, rfl⟩
    | some r => cases h
  | _ => exact ⟨rfl, rfl⟩

end Insn

theorem Yields.first {ε α β : Type} {x : Except ε α} {f : α → Except ε β} {p : Prop} (h : Yields x fun _ => p) :
    Yields (x >>= f) fun _ => p := by
  intro b hb
  obtain ⟨a, ha, -⟩ := bind_eq_ok.mp hb
  exact h a ha

namespace Dalvik

variable {code : Code} {pool : Pool} {pc : Nat} {d : Decoded} {opcode : Opcode}

def Decoded.size (d : Decoded) : Nat := 1 + d.tail

/-- The number of units of an instruction after its first one. -/
def Opcode.tail : Opcode → Nat
  | .move _ width => width.index
  | .const16 | .constHigh16 | .constWide16 | .constWideHigh16 | .constString | .constClass | .checkCast | .instanceOf
  | .newInstance | .newArray | .goto16 | .compare _ | .ifCmp _ | .ifZero _ | .arrayGet _ | .arrayPut _
  | .instanceGet _ | .instancePut _ | .staticGet _ | .staticPut _ | .binary .. | .binaryLiteral .. => 1
  | .const32 | .constWide32 | .constStringJumbo | .filledNewArray _ | .fillArrayData | .goto32 | .packedSwitch
  | .sparseSwitch | .invoke .. => 2
  | .constWide64 => 4
  | _ => 0

theorem unit_inside (pc i : Nat) : Yields (code.unit pc i) fun _ => i < code.size := by
  intro u hu
  unfold Code.unit at hu
  split at hu
  · rename_i hunit
    exact (Array.getElem?_eq_some_iff.mp hunit).1
  · cases hu

theorem word_inside (pc i : Nat) : Yields (code.word pc i) fun _ => i + 1 < code.size :=
  .bind fun _ => (unit_inside pc (i + 1)).first

theorem invokeRegisters_inside (pc : Nat) (range : Bool) :
    Yields (invokeRegisters code pc range) fun _ => pc + 2 < code.size :=
  .bind fun _ => (unit_inside pc (pc + 2)).first

theorem decodeOpcode_inside (hpc : pc < code.size) (aa : Nat) (opcode : Opcode) :
    Yields (decodeOpcode code pool pc aa opcode) fun _ => pc + opcode.tail < code.size := by
  have hpc' : Yields (decodeOpcode code pool pc aa opcode) fun _ => pc < code.size := fun _ _ => hpc
  cases opcode with
  | move kind width =>
      cases width with
      | nibbles => exact hpc'
      | byteUnit => exact (unit_inside pc (pc + 1)).first
      | units => exact .bind fun _ => (unit_inside pc (pc + 2)).first
  | const16 | constHigh16 | constWide16 | constWideHigh16 | constString | compare | arrayGet | arrayPut | binary
  | goto16 | ifCmp | ifZero =>
      exact (unit_inside pc (pc + 1)).first
  | constClass | checkCast | instanceOf | newInstance | newArray | instanceGet | instancePut | staticGet | staticPut =>
      exact (unit_inside pc (pc + 1)).first.first
  | binaryLiteral op wide => cases wide <;> exact (unit_inside pc (pc + 1)).first
  | const32 | constWide32 | constStringJumbo | fillArrayData | goto32 | packedSwitch | sparseSwitch =>
      exact (word_inside pc (pc + 1)).first
  | filledNewArray range => exact .bind fun _ => (invokeRegisters_inside pc range).first
  | invoke kind range => exact .bind fun _ => .bind fun _ => (invokeRegisters_inside pc range).first
  | constWide64 => exact .bind fun _ => (word_inside pc (pc + 3)).first
  | _ => exact hpc'

theorem payloadSize_inside (pc : Nat) : Yields (code.payloadSize pc) fun n => 0 < n ∧ pc + n ≤ code.size := by
  have hchecked (n : Nat) (hn : 0 < n) :
      Yields (if code.size < pc + n then .error (.truncated pc) else .ok n : Except DecodeFault Nat)
        fun n => 0 < n ∧ pc + n ≤ code.size := by
    split
    · exact .error _
    · rename_i hsize
      exact .ok ⟨hn, not_lt.mp hsize⟩
  refine .bind fun ident => .bind fun size => ?_
  split
  · exact hchecked _ (by omega)
  split
  · exact hchecked _ (by omega)
  split
  · exact .bind fun _ => hchecked _ (by omega)
  · exact .error _

/-- What is read for an opcode: its instruction with all of its units, or a table. -/
def Decoded.Complete (code : Code) (pc : Nat) (opcode : Opcode) (d : Decoded) : Prop :=
  match d.item with
  | .insn i => d.tail = opcode.tail ∧ i.isFresh = true
  | .moveResult .. => d.tail = opcode.tail
  | .payload => code.payloadSize pc = .ok d.size

/-- Decoding does not say what is caught. -/
def Unmarked (i : Insn) : Prop := ∀ caught, i.op = .moveException caught → caught = none

/-- An instruction as it is read at a position. -/
structure ReadAt (pc : Nat) (i : Insn) : Prop where
  offset : i.offset = pc
  unmarked : Unmarked i
  unfolded : i.Unfolded

theorem ReadAt.of {op : Op} {args : List Arg} {result : Option Register} (hmark : ∀ caught, op ≠ .moveException caught)
    (hternary : op.isTernary = false) (hargs : ∀ a ∈ args, a.insn? = none) : ReadAt pc (.of op args result pc) :=
  ⟨rfl, fun caught hop => absurd hop (hmark caught), ⟨hternary, hargs⟩⟩

theorem argumentsOf_unfolded (types : List Ty) (regs : List Nat) : ∀ a ∈ argumentsOf types regs, a.insn? = none := by
  fun_induction argumentsOf types regs with
  | case1 t ts r rs ih => exact List.forall_mem_cons.mpr ⟨rfl, ih⟩
  | case2 => nofun

theorem invokeArguments_unfolded (pc : Nat) (regs : List Nat) (m : MethodRef) (isStatic : Bool) :
    Yields (invokeArguments pc regs m isStatic) fun args => ∀ a ∈ args, a.insn? = none :=
  .ite (.error _) (.ok (argumentsOf_unfolded _ _))

theorem unary_reads (pc index dst src : Nat) :
    ReadAt pc (unary pc index dst src) ∧ (unary pc index dst src).isFresh = true := by
  have hall : ∀ op ∈ unaryOps, (∀ caught, op ≠ .moveException caught) ∧ op.isTernary = false ∧
      op.leavesResult = false := by
    simp [unaryOps, Op.isTernary, Op.leavesResult]
  obtain ⟨hmark, hternary, hleaves⟩ : (∀ caught, (unaryOps[index]?).getD .nop ≠ .moveException caught) ∧
      ((unaryOps[index]?).getD .nop).isTernary = false ∧ ((unaryOps[index]?).getD .nop).leavesResult = false := by
    cases hop : unaryOps[index]? with
    | none => exact ⟨nofun, rfl, rfl⟩
    | some op => exact hall op (List.mem_of_getElem? hop)
  exact ⟨.of hmark hternary (by simp [Arg.ofTyped, Arg.insn?]), Insn.isFresh_of_some hleaves _ _ _⟩

theorem binaryLiteral_reads (pc : Nat) (op : ArithOp) (dst src : Nat) (value : Int) :
    ReadAt pc (binaryLiteral pc op dst src value) := by
  unfold binaryLiteral
  split
  all_goals exact .of nofun rfl (by simp [Arg.ofTyped, Arg.insn?])

theorem decodeOpcode_reads (code : Code) (pool : Pool) (pc aa : Nat) (opcode : Opcode) :
    Yields (decodeOpcode code pool pc aa opcode) fun d =>
      d.Complete code pc opcode ∧ ∀ i, d.item = .insn i → ReadAt pc i := by
  have hinsn {i : Insn} {tail : Nat} {opcode : Opcode} (hi : ReadAt pc i) (htail : tail = opcode.tail)
      (hfresh : i.isFresh = true) : Yields (.ok ⟨.insn i, tail⟩ : Except DecodeFault Decoded) fun d =>
        d.Complete code pc opcode ∧ ∀ i, d.item = .insn i → ReadAt pc i :=
    .ok ⟨⟨htail, hfresh⟩, fun _ h => Item.insn.inj h ▸ hi⟩
  have hpure {i : Insn} {tail : Nat} {opcode : Opcode} (hi : ReadAt pc i) (htail : tail = opcode.tail)
      (hfresh : i.isFresh = true) : Yields (pure ⟨.insn i, tail⟩ : Except DecodeFault Decoded) fun d =>
        d.Complete code pc opcode ∧ ∀ i, d.item = .insn i → ReadAt pc i :=
    hinsn hi htail hfresh
  cases opcode
  all_goals simp only [decodeOpcode]
  case nop =>
    refine .ite (hinsn (.of nofun rfl nofun) rfl rfl) (.ite ?_ (.error _))
    intro d hd
    obtain ⟨n, hn, hd⟩ := bind_eq_ok.mp hd
    cases hd
    have hpos := (payloadSize_inside pc n hn).1
    refine ⟨?_, nofun⟩
    change code.payloadSize pc = .ok (1 + (n - 1))
    rw [hn, Nat.add_sub_cancel' hpos]
  case moveResult kind => exact .ok ⟨rfl, nofun⟩
  case moveException => exact hinsn ⟨rfl, fun _ hop => (Op.moveException.inj hop).symm, ⟨rfl, nofun⟩⟩ rfl rfl
  case move kind width =>
    have hmove (dst src : Nat) : ReadAt pc (.of .move [.reg (wideRegister src (kind == .wide))]
        (some (wideRegister dst (kind == .wide))) pc) :=
      .of nofun rfl (by simp [Arg.insn?])
    cases width
    · exact .bind fun _ => hinsn (hmove _ _) rfl rfl
    · exact .bind fun _ => .bind fun _ => hinsn (hmove _ _) rfl rfl
    · exact .bind fun _ => .bind fun _ => .bind fun _ => hinsn (hmove _ _) rfl rfl
  case unary i => exact hpure (unary_reads _ _ _ _).1 rfl (unary_reads _ _ _ _).2
  case binaryLiteral op wide => cases wide <;> exact .bind fun _ => hpure (binaryLiteral_reads _ _ _ _ _) rfl rfl
  case filledNewArray range =>
    refine .bind fun t => .bind fun regs => hinsn (.of nofun rfl fun a ha => ?_) rfl rfl
    obtain ⟨r, -, rfl⟩ := List.mem_map.mp ha
    rfl
  case invoke kind range =>
    refine .bind fun _ => .bind fun m => .bind fun regs => ?_
    intro d hd
    obtain ⟨args, hargs, hd⟩ := bind_eq_ok.mp hd
    have hread : ReadAt pc (.of (.invoke kind m) args none pc) :=
      .of nofun rfl (invokeArguments_unfolded _ _ _ _ args hargs)
    exact hinsn hread rfl rfl d hd
  -- The others read their operands one after the other and give one instruction.
  all_goals
    repeat refine .bind fun _ => ?_
    first
      | with_reducible refine hinsn ?_ ?_ ?_
      | with_reducible refine hpure ?_ ?_ ?_
    · exact .of nofun rfl (by simp [Arg.ofTyped, Arg.ofReg, Arg.insn?])
    all_goals rfl

theorem exists_of_decodeAt (h : decodeAt code pool pc = .ok d) :
    ∃ aa opcode, pc < code.size ∧ decodeOpcode code pool pc aa opcode = .ok d := by
  obtain ⟨u, hu, h⟩ := bind_eq_ok.mp h
  split at h
  · exact ⟨_, _, unit_inside pc pc u hu, h⟩
  · cases h

theorem readAt_of_decodeAt {i : Insn} (h : decodeAt code pool pc = .ok d) (hi : d.item = .insn i) : ReadAt pc i := by
  obtain ⟨aa, opcode, -, hd⟩ := exists_of_decodeAt h
  exact (decodeOpcode_reads code pool pc aa opcode d hd).2 i hi

/-- What is read at a position is read whole, and it lies within the code. -/
structure Decoded.Fits (code : Code) (pc : Nat) (d : Decoded) : Prop where
  inside : pc + d.size ≤ code.size
  table : d.item = .payload → code.payloadSize pc = .ok d.size
  fresh : ∀ i, d.item = .insn i → i.isFresh = true

theorem decodeAt_fits (code : Code) (pool : Pool) (pc : Nat) :
    Yields (decodeAt code pool pc) (Decoded.Fits code pc) := by
  intro d hd
  obtain ⟨aa, opcode, hpc, hd⟩ := exists_of_decodeAt hd
  have hinside := decodeOpcode_inside hpc aa opcode d hd
  have hcomplete := (decodeOpcode_reads code pool pc aa opcode d hd).1
  obtain ⟨item, tail⟩ := d
  cases item with
  | insn i =>
      obtain ⟨htail, hfresh⟩ := hcomplete
      change tail = opcode.tail at htail
      exact ⟨by simp only [Decoded.size]; omega, nofun, fun _ h => Item.insn.inj h ▸ hfresh⟩
  | moveResult reg wide =>
      have htail : tail = opcode.tail := hcomplete
      exact ⟨by simp only [Decoded.size]; omega, nofun, nofun⟩
  | payload =>
      have htable : code.payloadSize pc = .ok (Decoded.size ⟨.payload, tail⟩) := hcomplete
      exact ⟨(payloadSize_inside pc _ htable).2, fun _ => htable, nofun⟩

def At (pc : Nat) (d : Decoded) : Prop := ∀ i, d.item = .insn i → i.offset = pc

def Reads (d : Decoded) : Prop := ∀ i, d.item = .insn i → i.Unfolded

def UnmarkedItem (d : Decoded) : Prop := ∀ i, d.item = .insn i → Unmarked i

theorem decodeAt_at (code : Code) (pool : Pool) (pc : Nat) : Yields (decodeAt code pool pc) (At pc) :=
  fun _ hd _ hi => (readAt_of_decodeAt hd hi).offset

theorem decodeAt_unfolded (code : Code) (pool : Pool) (pc : Nat) : Yields (decodeAt code pool pc) Reads :=
  fun _ hd _ hi => (readAt_of_decodeAt hd hi).unfolded

theorem decodeAt_unmarked (code : Code) (pool : Pool) (pc : Nat) : Yields (decodeAt code pool pc) UnmarkedItem :=
  fun _ hd _ hi => (readAt_of_decodeAt hd hi).unmarked

/-- All items of the code from a position on, with their positions, as far as the code can be read. -/
def itemsFrom (code : Code) (pool : Pool) (pc : Nat) : List (Nat × Item) :=
  if pc < code.size then
    match decodeAt code pool pc with
    | .error _ => []
    | .ok d => (pc, d.item) :: itemsFrom code pool (pc + 1 + d.tail)
  else []
termination_by code.size - pc

theorem lt_of_mem_itemsFrom : ∀ t ∈ (itemsFrom code pool pc).map (·.1), t < code.size := by
  fun_induction itemsFrom code pool pc with
  | case1 => nofun
  | case2 pc hlt d hd ih => exact List.forall_mem_cons.mpr ⟨hlt, ih⟩
  | case3 => nofun

theorem exists_of_mem_itemsFrom {p : Nat × Item} (h : p ∈ itemsFrom code pool pc) :
    ∃ d, decodeAt code pool p.1 = .ok d ∧ d.item = p.2 := by
  fun_induction itemsFrom code pool pc with
  | case1 => cases h
  | case2 pc hlt d hd ih =>
      rcases List.mem_cons.mp h with rfl | h
      · exact ⟨d, hd, rfl⟩
      · exact ih h
  | case3 => cases h

/-- Decoding without an error takes up the items one after the other. -/
theorem foldlM_of_decodeFrom {done insns : List Insn} (h : decodeFrom code pool done pc = .ok insns) :
    (itemsFrom code pool pc).foldlM (fun done p => addItem done p.1 p.2) done = .ok insns.reverse := by
  fun_induction itemsFrom code pool pc generalizing done with
  | case1 pc hlt e he =>
      rw [decodeFrom, if_pos hlt, he] at h
      cases h
  | case2 pc hlt d hd ih =>
      rw [decodeFrom, if_pos hlt, hd] at h
      simp only at h
      cases hadd : addItem done pc d.item with
      | error e => simp [hadd] at h
      | ok done' =>
          rw [hadd] at h
          rw [List.foldlM_cons, hadd]
          exact ih h
  | case3 pc hend =>
      rw [decodeFrom, if_neg hend] at h
      cases h
      rw [List.reverse_reverse]
      rfl

namespace Item

def insn? : Item → Option Insn
  | .insn i => some i
  | _ => none

/-- The register that takes the result of the call before. -/
def result? : Item → Option Nat
  | .moveResult reg _ => some reg
  | _ => none

def isTable : Item → Bool
  | .payload => true
  | _ => false

end Item

theorem resultType?_eq_some {i : Insn} {type : Ty} (h : resultType? i = some type) :
    i.op.leavesResult = true ∧ i.result = none := by
  unfold resultType? at h
  split at h
  · cases h
  · rename_i hresult
    refine ⟨?_, Option.not_isSome_iff_eq_none.mp hresult⟩
    split at h
    · rename_i hop
      rw [hop]
      rfl
    · rename_i hop
      rw [hop]
      rfl
    · cases h

theorem exists_of_addItem_moveResult {done done' : List Insn} {reg : Nat} {wide : Bool}
    (h : addItem done pc (.moveResult reg wide) = .ok done') :
    ∃ call before type, done = call :: before ∧ resultType? call = some type ∧
      done' = { call with result := some { Register.typed reg type with wide := type.isWide || wide } } :: before := by
  cases done with
  | nil => cases h
  | cons call before =>
      simp only [addItem] at h
      split at h
      · cases h
      · rename_i type htype
        exact ⟨call, before, type, rfl, htype, (Except.ok.inj h).symm⟩

/-- The instructions among the items are those given, in their order and before any result was joined to them, and the
results are those that were joined. -/
structure Accounts (items : List (Nat × Item)) (insns : List Insn) : Prop where
  read : items.filterMap (fun p => p.2.insn?.map (p.1, ·)) = insns.map fun i => (i.offset, i.unjoined)
  results : items.filterMap (·.2.result?) = insns.filterMap Insn.joined?

theorem Accounts.add {items : List (Nat × Item)} {done done' : List Insn} {item : Item}
    (h : Accounts items done.reverse) (hfresh : ∀ i, item = .insn i → i.offset = pc ∧ i.isFresh = true)
    (hadd : addItem done pc item = .ok done') : Accounts (items ++ [(pc, item)]) done'.reverse := by
  suffices hparts : (done'.reverse.map fun i => (i.offset, i.unjoined)) =
        (done.reverse.map fun i => (i.offset, i.unjoined)) ++ (item.insn?.map (pc, ·)).toList ∧
      done'.reverse.filterMap Insn.joined? = done.reverse.filterMap Insn.joined? ++ item.result?.toList by
    constructor
    · rw [List.filterMap_append, h.read, hparts.1]
      cases item <;> rfl
    · rw [List.filterMap_append, h.results, hparts.2]
      cases item <;> rfl
  cases item with
  | insn i =>
      cases hadd
      obtain ⟨hoffset, hunjoined, hjoined⟩ := (hfresh i rfl).imp_right Insn.unjoined_of_isFresh
      simp [Item.insn?, Item.result?, hoffset, hunjoined, hjoined]
  | payload =>
      cases hadd
      simp [Item.insn?, Item.result?]
  | moveResult reg wide =>
      obtain ⟨call, before, type, rfl, htype, rfl⟩ := exists_of_addItem_moveResult hadd
      obtain ⟨hleaves, hnone⟩ := resultType?_eq_some htype
      simp [Item.insn?, Item.result?, Insn.unjoined, Insn.joined?, hleaves, hnone, Register.typed]

theorem accounts_of_foldlM {before items : List (Nat × Item)} {done out : List Insn}
    (hfresh : ∀ p ∈ items, ∀ i, p.2 = .insn i → i.offset = p.1 ∧ i.isFresh = true)
    (hdone : Accounts before done.reverse)
    (h : items.foldlM (fun done p => addItem done p.1 p.2) done = .ok out) :
    Accounts (before ++ items) out.reverse := by
  induction items generalizing before done with
  | nil =>
      cases h
      rwa [List.append_nil]
  | cons p items ih =>
      rw [List.forall_mem_cons] at hfresh
      rw [List.foldlM_cons] at h
      obtain ⟨done', hadd, h⟩ := bind_eq_ok.mp h
      have hnext := ih hfresh.2 (hdone.add hfresh.1 hadd) h
      rwa [List.append_assoc] at hnext

theorem decodeAll_accounts {insns : List Insn} (h : decodeAll code pool = .ok insns) :
    Accounts (itemsFrom code pool 0) insns := by
  have hfresh : ∀ p ∈ itemsFrom code pool 0, ∀ i, p.2 = .insn i → i.offset = p.1 ∧ i.isFresh = true := by
    intro p hp i hi
    obtain ⟨d, hd, hitem⟩ := exists_of_mem_itemsFrom hp
    rw [hi] at hitem
    exact ⟨decodeAt_at code pool p.1 d hd i hitem, (decodeAt_fits code pool p.1 d hd).fresh i hitem⟩
  have hnone : Accounts [] [] := ⟨rfl, rfl⟩
  have haccounts := accounts_of_foldlM hfresh hnone (foldlM_of_decodeFrom h)
  rwa [List.reverse_reverse] at haccounts

def insnPositions (items : List (Nat × Item)) : List Nat :=
  items.filterMap fun (pc, item) => match item with
    | .insn _ => some pc
    | _ => none

theorem insnPositions_eq (items : List (Nat × Item)) :
    insnPositions items = (items.filterMap fun p => p.2.insn?.map (p.1, ·)).map (·.1) := by
  rw [insnPositions, List.map_filterMap]
  refine List.filterMap_congr fun p _ => ?_
  obtain ⟨pc, item⟩ := p
  cases item <;> rfl

/-- An instruction is at each position where the code has one, in the order of the code. -/
theorem decodeAll_offsets {insns : List Insn} (h : decodeAll code pool = .ok insns) :
    insns.map (·.offset) = insnPositions (itemsFrom code pool 0) := by
  rw [insnPositions_eq, (decodeAll_accounts h).read, List.map_map]
  rfl

theorem addItem_unmarked {done done' : List Insn} (hd : UnmarkedItem d) (hdone : ∀ i ∈ done, Unmarked i)
    (h : addItem done pc d.item = .ok done') : ∀ i ∈ done', Unmarked i := by
  obtain ⟨item, tail⟩ := d
  cases item with
  | insn i =>
      cases h
      exact List.forall_mem_cons.mpr ⟨hd i rfl, hdone⟩
  | payload =>
      cases h
      exact hdone
  | moveResult reg wide =>
      obtain ⟨call, before, type, rfl, -, rfl⟩ := exists_of_addItem_moveResult h
      rw [List.forall_mem_cons] at hdone
      exact List.forall_mem_cons.mpr hdone

theorem decodeAll_unmarked {insns : List Insn} (h : decodeAll code pool = .ok insns) : ∀ i ∈ insns, Unmarked i := by
  suffices hall : ∀ i ∈ insns.reverse, Unmarked i by simpa using hall
  refine invariant_of_foldlM (P := fun done => ∀ i ∈ done, Unmarked i) (fun done p done' hp hdone hadd => ?_)
    (List.forall_mem_nil _) (foldlM_of_decodeFrom h)
  obtain ⟨d, hd, hitem⟩ := exists_of_mem_itemsFrom hp
  exact addItem_unmarked (decodeAt_unmarked code pool p.1 d hd) hdone (hitem ▸ hadd)

end Dalvik

end JavaLift
