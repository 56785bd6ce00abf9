import JavaLift.Proofs.Dalvik.Reading

namespace JavaLift.Dalvik

variable {pool : Pool} {place? : String → Option Nat} {code : Code} {d : Distances} {pc : Nat} {s : Stmt}

def written (pc : Nat) (op : Op) (args : List Arg) (result : Option Register) : Insn :=
  { op, args, result, offset := pc, line := none }

/-- A register with a value of a type, which takes the register after it as well if the type is wide. -/
def holding (reg : Nat) (type : Ty) : Register := { reg, type, wide := type.isWide, var := none }

/-- A register that is moved or returned. Of its type only the size is known. -/
def ValueKind.register (kind : ValueKind) (reg : Nat) : Register :=
  { reg, type := if kind = .wide then .narrow .wide else .unknown, wide := kind == .wide, var := none }

def unaryMeaning? : Nat → Option (Op × Ty × Ty)
  | 0x7b => some (.neg .int, .int, .int)
  | 0x7c => some (.not .int, .int, .int)
  | 0x7d => some (.neg .long, .long, .long)
  | 0x7e => some (.not .long, .long, .long)
  | 0x7f => some (.neg .float, .float, .float)
  | 0x80 => some (.neg .double, .double, .double)
  | 0x81 => some (.cast .int .long, .int, .long)
  | 0x82 => some (.cast .int .float, .int, .float)
  | 0x83 => some (.cast .int .double, .int, .double)
  | 0x84 => some (.cast .long .int, .long, .int)
  | 0x85 => some (.cast .long .float, .long, .float)
  | 0x86 => some (.cast .long .double, .long, .double)
  | 0x87 => some (.cast .float .int, .float, .int)
  | 0x88 => some (.cast .float .long, .float, .long)
  | 0x89 => some (.cast .float .double, .float, .double)
  | 0x8a => some (.cast .double .int, .double, .int)
  | 0x8b => some (.cast .double .long, .double, .long)
  | 0x8c => some (.cast .double .float, .double, .float)
  | 0x8d => some (.cast .int .byte, .int, .byte)
  | 0x8e => some (.cast .int .char, .int, .char)
  | 0x8f => some (.cast .int .short, .int, .short)
  | _ => none

def comparedType : Nat → Ty
  | 0 | 1 => .float
  | 2 | 3 => .double
  | _ => .long

def elementType : Nat → Ty
  | 0 => .narrow (.ofList [.int, .float])
  | 1 => .narrow .wide
  | 2 => .unknown
  | 3 => .boolean
  | 4 => .byte
  | 5 => .char
  | _ => .short

/-- The arguments of a call, each in the register behind those that the arguments before it take. -/
def passed (types : List Ty) (regs : List Nat) : List Arg :=
  types.mapIdx fun i type => .reg (holding ((regs[((types.take i).map Ty.width).sum]?).getD 0) type)

/-- The call of a method. Its result goes where the move of the result says. -/
def call (pc : Nat) (kind : InvokeKind) (m : MethodRef) (regs : List Nat) (result : Option (ValueKind × Nat)) : Insn :=
  let types := if kind = .static then m.params else .ofClassName m.className :: m.params
  written pc (.invoke kind m) (passed types regs)
    (result.map fun (kind, reg) => { reg, type := m.ret, wide := m.ret.isWide || kind == .wide, var := none })

/-- The instruction that a line of a program stands for. The result of a call comes from the line after it. -/
def Stmt.insn? (pool : Pool) (place? : String → Option Nat) (pc : Nat) (result : Option (ValueKind × Nat)) :
    Stmt → Option Insn
  | .raw _ | .label _ | .line _ | .tryRange .. | .moveResult .. => none
  | .nop => some (written pc .nop [] none)
  | .move kind dst src => some (written pc .move [.reg (kind.register src)] (some (kind.register dst)))
  | .moveException dst => some (written pc (.moveException none) [] (some (holding dst .unknown)))
  | .returnVoid => some (written pc .ret [] none)
  | .ret kind reg => some (written pc .ret [.reg (kind.register reg)] none)
  | .const dst value =>
    let type := Ty.narrow (.ofLiteral value false)
    some (written pc .const [.lit value type] (some (holding dst type)))
  | .constWide dst value =>
    let type := Ty.narrow (.ofLiteral value true)
    some (written pc .const [.lit value type] (some (holding dst type)))
  | .constString dst index =>
    (pool.string? index).map fun s => written pc (.constString s) [] (some (holding dst (.object "java.lang.String")))
  | .constClass dst index =>
    (pool.type? index).map fun t => written pc (.constClass t) [] (some (holding dst .unknown))
  | .monitorEnter reg => some (written pc .monitorEnter [.reg (holding reg .unknown)] none)
  | .monitorExit reg => some (written pc .monitorExit [.reg (holding reg .unknown)] none)
  | .checkCast reg index =>
    (pool.type? index).map fun t => written pc (.checkCast t) [.reg (holding reg .unknown)] (some (holding reg t))
  | .instanceOf dst src index => (pool.type? index).map fun t =>
    written pc (.instanceOf t) [.reg (holding src .unknown)] (some (holding dst .boolean))
  | .arrayLength dst array => some (written pc .arrayLength [.reg (holding array .unknown)] (some (holding dst .int)))
  | .newInstance dst index =>
    (pool.type? index).map fun t => written pc (.newInstance t) [] (some (holding dst t))
  | .newArray dst size index =>
    (pool.type? index).map fun t => written pc (.newArray t) [.reg (holding size .int)] (some (holding dst t))
  | .throw reg => some (written pc .throw [.reg (holding reg .unknown)] none)
  | .goto8 l | .goto16 l | .goto32 l => (place? l).map fun target => written pc (.goto target) [] none
  | .ifCmp cmp x y l => (place? l).map fun target =>
    written pc (.jumpIf cmp target) [.reg (holding x .unknown), .reg (holding y .unknown)] none
  | .ifZero cmp reg l => (place? l).map fun target =>
    written pc (.jumpIf cmp target) [.reg (holding reg .unknown)] none
  | .packedSwitch reg first targets => (targets.mapM place?).map fun places =>
    written pc (.switchOn ((List.range targets.length).map fun i : Nat => Int.bmod (first + i) (2 ^ 32)) places none)
      [.reg (holding reg .int)] none
  | .sparseSwitch reg cases => (cases.mapM fun c => place? c.2).map fun places =>
    written pc (.switchOn (cases.map (·.1)) places none) [.reg (holding reg .int)] none
  | .compare variant dst x y =>
    let type := comparedType variant
    some (written pc (.compare type) [.reg (holding x type), .reg (holding y type)] (some (holding dst .int)))
  | .arrayGet variant dst array index =>
    let type := elementType variant
    some (written pc (.arrayGet type) [.reg (holding array .unknown), .reg (holding index .int)]
      (some (holding dst type)))
  | .arrayPut variant src array index =>
    let type := elementType variant
    some (written pc (.arrayPut type)
      [.reg (holding array .unknown), .reg (holding index .int), .reg (holding src type)] none)
  | .instanceGet _ dst object index => (pool.field? index).map fun f =>
    written pc (.instanceGet f) [.reg (holding object (.ofClassName f.className))] (some (holding dst f.type))
  | .instancePut _ src object index => (pool.field? index).map fun f =>
    written pc (.instancePut f) [.reg (holding object (.ofClassName f.className)), .reg (holding src f.type)] none
  | .staticGet _ dst index =>
    (pool.field? index).map fun f => written pc (.staticGet f) [] (some (holding dst f.type))
  | .staticPut _ src index => (pool.field? index).map fun f => written pc (.staticPut f) [.reg (holding src f.type)] none
  | .invoke kind index regs => (pool.method? index).map fun m => call pc kind m regs result
  | .invokeRange kind index first count => (pool.method? index).map fun m =>
    call pc kind m ((List.range count).map fun i => (first + i) % 2 ^ 16) result
  | .unary opcode dst src => (unaryMeaning? opcode).map fun (op, source, target) =>
    written pc op [.reg (holding src source)] (some (holding dst target))
  | .binary op dst x y =>
    some (written pc (.arith op .int) [.reg (holding x .int), .reg (holding y .int)] (some (holding dst .int)))
  | .binaryTwo op dst src =>
    some (written pc (.arith op .int) [.reg (holding dst .int), .reg (holding src .int)] (some (holding dst .int)))
  | .binaryLiteral variant dst src value =>
    -- The second variant takes the register from the literal.
    let operands := if variant = 1 then [.lit value .int, .reg (holding src .int)]
      else [.reg (holding src .int), .lit value .int]
    some (written pc (.arith (Opcode.literalOp variant) .int) operands (some (holding dst .int)))

def Stmt.item? (pool : Pool) (place? : String → Option Nat) (pc : Nat) : Stmt → Option Item
  | .moveResult kind reg => some (.moveResult reg (kind == .wide))
  | s => (s.insn? pool place? pc none).map .insn

structure Legible (code : Code) (d : Distances) (place? : String → Option Nat) (pc : Nat) (s : Stmt) : Prop where
  cells : HasAt code pc (spell d (s.cells pc))
  reached : ∀ c ∈ s.cells pc, c.Reached place? d
  tables : ∀ w, s.switch? pc = some w →
    (∃ start, TableAt code d w start) ∧ ∀ l ∈ w.targets, Leads place? d 32 pc l
  low : pc < 2 ^ 31
  size : code.size ≤ 2 ^ 31

@[simp] theorem reference_some {α : Type} (kind : RefKind) (a : α) (index pc : Nat) :
    reference kind (some a) index pc = .ok a := rfl

theorem nibbles {x y : Nat} (h : x < 16 ∧ y < 16) : (x + 16 * y) % 16 = x ∧ (x + 16 * y) / 16 = y := by omega

/-- Each argument is read from the register behind those of the arguments before it. -/
theorem argumentsOf_eq_passed {types : List Ty} {regs : List Nat} (h : regs.length = registerCount types) :
    argumentsOf types regs = passed types regs := by
  induction types generalizing regs with
  | nil => cases regs <;> rfl
  | cons type types ih =>
      have hcount : registerCount (type :: types) = type.width + registerCount types := rfl
      have hpos : 0 < type.width := by
        unfold Ty.width
        split <;> decide
      cases regs with
      | nil =>
          rw [List.length_nil] at h
          omega
      | cons r rs =>
          have hrest : ((r :: rs).drop type.width).length = registerCount types := by
            rw [List.length_drop, h, hcount, Nat.add_sub_cancel_left]
          have hhead : Arg.ofTyped r type = .reg (holding r type) := rfl
          rw [argumentsOf, ih hrest, hhead, passed, passed, List.mapIdx_cons]
          simp [List.getElem?_drop]

theorem invokeArguments_ok {regs : List Nat} {m : MethodRef} {kind : InvokeKind}
    (h : regs.length = m.argumentRegisters kind.isStatic) : invokeArguments pc regs m kind.isStatic
      = .ok (passed (if kind = .static then m.params else .ofClassName m.className :: m.params) regs) := by
  have htypes : (if kind.isStatic then m.params else .ofClassName m.className :: m.params)
      = if kind = .static then m.params else .ofClassName m.className :: m.params := by cases kind <;> rfl
  have hcount : regs.length
      = registerCount (if kind.isStatic then m.params else .ofClassName m.className :: m.params) := by
    rw [h, MethodRef.argumentRegisters]
    cases kind.isStatic with
    | true => exact Nat.zero_add _
    | false => rfl
  rw [invokeArguments, if_neg (not_not.mpr h), argumentsOf_eq_passed hcount, htypes]

theorem wideRegister_eq (kind : ValueKind) (reg : Nat) : wideRegister reg (kind == .wide) = kind.register reg := by
  cases kind <;> rfl

theorem type_compareKind : (variant : Nat) → (CompareKind.ofVariant variant).type = comparedType variant
  | 0 | 1 | 2 | 3 | _ + 4 => rfl

theorem type_elementKind : (variant : Nat) → (ElementKind.ofVariant variant).type = elementType variant
  | 0 | 1 | 2 | 3 | 4 | 5 | _ + 6 => rfl

theorem unary_eq {n : Nat} (h : 0x7b ≤ n ∧ n ≤ 0x8f) (pc dst src : Nat) :
    ∃ op source target, unaryMeaning? n = some (op, source, target) ∧ unary pc (n - 0x7b) dst src
      = written pc op [.reg (holding src source)] (some (holding dst target)) := by
  obtain ⟨hlow, hhigh⟩ := h
  interval_cases n <;> exact ⟨_, _, _, rfl, rfl⟩

theorem binary_eq (pc : Nat) (op : ArithOp) (dst x y : Nat) : binary pc op .int dst x y
    = written pc (.arith op .int) [.reg (holding x .int), .reg (holding y .int)] (some (holding dst .int)) := by
  cases op <;> rfl

theorem binaryLiteral_eq {variant : Nat} (h : variant ≤ 10) (pc dst src : Nat) (value : Int) :
    binaryLiteral pc (Opcode.literalOp variant) dst src value = written pc (.arith (Opcode.literalOp variant) .int)
      (if variant = 1 then [.lit value .int, .reg (holding src .int)] else [.reg (holding src .int), .lit value .int])
      (some (holding dst .int)) := by
  interval_cases variant <;> rfl

theorem invokeRegisters_list {kind : InvokeKind} {regs : List Nat} (hlength : regs.length ≤ 5)
    (hfits : ∀ r ∈ regs, r < 16)
    (hhead : code.unit pc pc
      = .ok ((Opcode.invoke kind false).byte + 256 * ((regs[4]?).getD 0 + 16 * regs.length)))
    (hregs : code.unit pc (pc + 2) = .ok ((regs[0]?).getD 0 + 16 * (regs[1]?).getD 0 + 256 * (regs[2]?).getD 0
      + 4096 * (regs[3]?).getD 0)) :
    invokeRegisters code pc false = .ok regs := by
  have hbyte : (Opcode.invoke kind false).byte < 256 := Opcode.byte_lt _ (by cases kind <;> decide)
  generalize (Opcode.invoke kind false).byte = byte at hhead hbyte
  have h0 := Assembler.nibble_lt hfits 0
  have h1 := Assembler.nibble_lt hfits 1
  have h2 := Assembler.nibble_lt hfits 2
  have h3 := Assembler.nibble_lt hfits 3
  have h4 := Assembler.nibble_lt hfits 4
  have htake : [(regs[0]?).getD 0, (regs[1]?).getD 0, (regs[2]?).getD 0, (regs[3]?).getD 0, (regs[4]?).getD 0].take
      regs.length = regs := by
    match regs, hlength with
    | [], _ | [_], _ | [_, _], _ | [_, _, _], _ | [_, _, _, _], _ | [_, _, _, _, _], _ => rfl
  generalize (regs[0]?).getD 0 = r0 at *
  generalize (regs[1]?).getD 0 = r1 at *
  generalize (regs[2]?).getD 0 = r2 at *
  generalize (regs[3]?).getD 0 = r3 at *
  generalize (regs[4]?).getD 0 = r4 at *
  have hcount : (byte + 256 * (r4 + 16 * regs.length)) / 4096 = regs.length := by omega
  have hlast : (byte + 256 * (r4 + 16 * regs.length)) / 256 % 16 = r4 := by omega
  have hfirst : (r0 + 16 * r1 + 256 * r2 + 4096 * r3) % 16 = r0 := by omega
  have hsecond : (r0 + 16 * r1 + 256 * r2 + 4096 * r3) / 16 % 16 = r1 := by omega
  have hthird : (r0 + 16 * r1 + 256 * r2 + 4096 * r3) / 256 % 16 = r2 := by omega
  have hfourth : (r0 + 16 * r1 + 256 * r2 + 4096 * r3) / 4096 = r3 := by omega
  simp only [invokeRegisters, hhead, hregs, ok_bind, hcount, hlast, hfirst, hsecond, hthird, hfourth, htake,
    if_neg (Nat.not_lt.mpr hlength)]
  rfl

theorem invokeRegisters_range {kind : InvokeKind} {first count : Nat}
    (hhead : code.unit pc pc = .ok ((Opcode.invoke kind true).byte + 256 * count))
    (hfirst : code.unit pc (pc + 2) = .ok first) :
    invokeRegisters code pc true = .ok ((List.range count).map fun i => (first + i) % 2 ^ 16) := by
  have hbyte : (Opcode.invoke kind true).byte < 256 := Opcode.byte_lt _ (by cases kind <;> decide)
  have hcount : ((Opcode.invoke kind true).byte + 256 * count) / 256 = count := by omega
  simp only [invokeRegisters, hhead, hfirst, ok_bind, hcount]
  rfl

/-- The short forms of a constant are for the values that fit in them. -/
theorem decodeOpcode_const {r : Nat} {value : Int} {o : Opcode} {aa : Nat} {rest : List Cell}
    (hvalid : FitsIn 32 value) (hform : (Stmt.const r value).form? pc = some (o, aa, rest))
    (hcode : HasAt code pc ((o.byte + 256 * aa) :: spell d rest)) :
    decodeOpcode code pool pc aa o = .ok ⟨.insn (written pc .const [.lit value (.narrow (.ofLiteral value false))]
      (some (holding r (.narrow (.ofLiteral value false))))), width rest⟩ := by
  simp only [Stmt.form?] at hform
  split_ifs at hform with hnibble hhalf hhigh <;> cases hform
  · have hlow : (r + 16 * (value % 16).toNat) % 16 = r := by omega
    have hvalue : signed 4 (value % 2 ^ 4).toNat = value := signed_toNat (by decide) ⟨hnibble.1, hnibble.2.1⟩
    have hhigh : (r + 16 * (value % 16).toNat) / 16 = (value % 2 ^ 4).toNat := by omega
    simp only [decodeOpcode, hlow, hhigh, hvalue]
    rfl
  · have hunit := hcode pc 1 (value % 2 ^ 16).toNat rfl
    have hvalue : signed 16 (value % 2 ^ 16).toNat = value := signed_toNat (by decide) hhalf
    simp only [decodeOpcode, hunit, ok_bind, hvalue]
    rfl
  · have hunit := hcode pc 1 (value / 2 ^ 16 % 2 ^ 16).toNat rfl
    have hvalue : signed 32 (value % 2 ^ 32).toNat = value := signed_toNat (by decide) hvalid
    have hbits : 65536 * (value / 2 ^ 16 % 2 ^ 16).toNat = (value % 2 ^ 32).toNat := by omega
    simp only [decodeOpcode, hunit, ok_bind, hbits, hvalue]
    rfl
  · have hword : code.word pc (pc + 1) = .ok (value % 2 ^ 32).toNat := hcode.tail.word
    have hvalue : signed 32 (value % 2 ^ 32).toNat = value := signed_toNat (by decide) hvalid
    simp only [decodeOpcode, hword, ok_bind, hvalue]
    rfl

theorem decodeOpcode_constWide {r : Nat} {value : Int} {o : Opcode} {aa : Nat} {rest : List Cell}
    (hvalid : FitsIn 64 value) (hform : (Stmt.constWide r value).form? pc = some (o, aa, rest))
    (hcode : HasAt code pc ((o.byte + 256 * aa) :: spell d rest)) :
    decodeOpcode code pool pc aa o = .ok ⟨.insn (written pc .const [.lit value (.narrow (.ofLiteral value true))]
      (some (holding r (.narrow (.ofLiteral value true))))), width rest⟩ := by
  simp only [Stmt.form?] at hform
  split_ifs at hform with hhalf hword <;> cases hform
  · have hunit := hcode pc 1 (value % 2 ^ 16).toNat rfl
    have hvalue : signed 16 (value % 2 ^ 16).toNat = value := signed_toNat (by decide) hhalf
    simp only [decodeOpcode, hunit, ok_bind, hvalue]
    rfl
  · have hcodeWord : code.word pc (pc + 1) = .ok (value % 2 ^ 32).toNat := hcode.tail.word
    have hvalue : signed 32 (value % 2 ^ 32).toNat = value := signed_toNat (by decide) hword
    simp only [decodeOpcode, hcodeWord, ok_bind, hvalue]
    rfl
  · have hrest := hcode.tail
    rw [spell_units] at hrest
    have hlow : code.word pc (pc + 1) = .ok (value % 2 ^ 32).toNat := hrest.word
    have hhigh : code.word pc (pc + 3) = .ok (value / 0x100000000 % 2 ^ 32).toNat := by
      have hnext := hrest.append.2
      rw [← List.append_nil (Assembler.wordUnits (value / 0x100000000))] at hnext
      exact hnext.word
    have hbits : (value % 2 ^ 32).toNat + 0x100000000 * (value / 0x100000000 % 2 ^ 32).toNat = (value % 2 ^ 64).toNat := by
      omega
    have hvalue : signed 64 (value % 2 ^ 64).toNat = value := signed_toNat (by decide) hvalid
    simp only [decodeOpcode, hlow, hhigh, ok_bind, hbits, hvalue]
    rfl

theorem Legible.hasAt {o : Opcode} {aa : Nat} {rest : List Cell} (h : Legible code d place? pc s)
    (hform : s.form? pc = some (o, aa, rest)) : HasAt code pc ((o.byte + 256 * aa) :: spell d rest) := by
  have hcode := h.cells
  rwa [Stmt.cells_of_form hform] at hcode

/-- The table of a switch, the positions of its targets, and the distance to the table, which is read back. -/
theorem Legible.switch {keys : SwitchKeys} {targets : List String} (h : Legible code d place? pc s)
    (hswitch : s.switch? pc = some ⟨pc, keys, targets⟩) :
    ∃ start places, TableAt code d ⟨pc, keys, targets⟩ start ∧ targets.mapM place? = some places ∧
      TableAt.LeadTo d pc targets places ∧ signed 32 (d.table pc % 2 ^ 32).toNat = d.table pc := by
  obtain ⟨⟨start, htable⟩, hleads⟩ := h.tables _ hswitch
  obtain ⟨places, hplaces, hlead⟩ := TableAt.places_of_leads hleads h.low
  exact ⟨start, places, htable, hplaces, hlead, signed_toNat (by decide) (htable.fits h.size h.low)⟩

theorem decodeOpcode_packedSwitch {r : Nat} {first : Int} {targets : List String} {o : Opcode} {aa : Nat}
    {rest : List Cell} (h : Legible code d place? pc (.packedSwitch r first targets))
    (hform : (Stmt.packedSwitch r first targets).form? pc = some (o, aa, rest)) :
    ∃ item, (Stmt.packedSwitch r first targets).item? pool place? pc = some item ∧
      decodeOpcode code pool pc aa o = .ok ⟨item, width rest⟩ := by
  have hcode := h.hasAt hform
  cases hform
  obtain ⟨start, places, htable, hplaces, hlead, hsigned⟩ := h.switch rfl
  have hword : code.word pc (pc + 1) = .ok (d.table pc % 2 ^ 32).toNat := hcode.tail.word
  have hlength : ((List.range targets.length).map fun i : Nat => Int.bmod (first + i) (2 ^ 32)).length
      = places.length := by simpa using hlead.length_eq
  exact ⟨_, by simp only [Stmt.item?, Stmt.insn?, hplaces]; rfl,
    by simp only [decodeOpcode, hword, ok_bind, hsigned, htable.readPacked hlead, List.map_fst_zip hlength.le,
      List.map_snd_zip hlength.ge]; rfl⟩

theorem decodeOpcode_sparseSwitch {r : Nat} {cases : List (Int × String)} {o : Opcode} {aa : Nat} {rest : List Cell}
    (h : Legible code d place? pc (.sparseSwitch r cases)) (hvalid : (Stmt.sparseSwitch r cases).Valid pool)
    (hform : (Stmt.sparseSwitch r cases).form? pc = some (o, aa, rest)) :
    ∃ item, (Stmt.sparseSwitch r cases).item? pool place? pc = some item ∧
      decodeOpcode code pool pc aa o = .ok ⟨item, width rest⟩ := by
  have hcode := h.hasAt hform
  cases hform
  obtain ⟨start, places, htable, hplaces, hlead, hsigned⟩ := h.switch rfl
  have hword : code.word pc (pc + 1) = .ok (d.table pc % 2 ^ 32).toNat := hcode.tail.word
  have hlength : (cases.map (·.1)).length = places.length := by simpa using hlead.length_eq
  have hkeys : ∀ k ∈ cases.map (·.1), FitsIn 32 k := by simpa using hvalid.2
  have hmapM : (cases.mapM fun c => place? c.2) = some places := by
    simpa [List.mapM_map, Function.comp_def] using hplaces
  exact ⟨_, by simp only [Stmt.item?, Stmt.insn?, hmapM]; rfl,
    by simp only [decodeOpcode, hword, ok_bind, hsigned, htable.readSparse hkeys (by simp) hlead,
      List.map_fst_zip hlength.le, List.map_snd_zip hlength.ge]; rfl⟩

theorem decodeOpcode_invoke {kind : InvokeKind} {index : Nat} {regs : List Nat} {o : Opcode} {aa : Nat}
    {rest : List Cell} (h : Legible code d place? pc (.invoke kind index regs))
    (hvalid : (Stmt.invoke kind index regs).Valid pool) (hfits : (Stmt.invoke kind index regs).Fits)
    (hform : (Stmt.invoke kind index regs).form? pc = some (o, aa, rest)) :
    ∃ item, (Stmt.invoke kind index regs).item? pool place? pc = some item ∧
      decodeOpcode code pool pc aa o = .ok ⟨item, width rest⟩ := by
  have hcode := h.hasAt hform
  simp only [Stmt.form?, Option.some.injEq, Prod.mk.injEq] at hform
  obtain ⟨rfl, rfl, rfl⟩ := hform
  obtain ⟨-, hcount, m, hm, hexpected⟩ := hvalid
  simp only [Stmt.Fits, List.take_of_length_le hcount] at hcode hfits ⊢
  have hunit := hcode pc 1 index rfl
  have hregs : invokeRegisters code pc false = .ok regs :=
    invokeRegisters_list hcount hfits hcode.head (hcode pc 2 _ rfl)
  exact ⟨_, by simp only [Stmt.item?, Stmt.insn?, hm]; rfl,
    by simp only [decodeOpcode, hunit, ok_bind, hm, reference_some, hregs, invokeArguments_ok hexpected]; rfl⟩

theorem decodeOpcode_invokeRange {kind : InvokeKind} {index first count : Nat} {o : Opcode} {aa : Nat}
    {rest : List Cell} (h : Legible code d place? pc (.invokeRange kind index first count))
    (hvalid : (Stmt.invokeRange kind index first count).Valid pool)
    (hform : (Stmt.invokeRange kind index first count).form? pc = some (o, aa, rest)) :
    ∃ item, (Stmt.invokeRange kind index first count).item? pool place? pc = some item ∧
      decodeOpcode code pool pc aa o = .ok ⟨item, width rest⟩ := by
  have hcode := h.hasAt hform
  simp only [Stmt.form?, Option.some.injEq, Prod.mk.injEq] at hform
  obtain ⟨rfl, rfl, rfl⟩ := hform
  obtain ⟨-, -, -, m, hm, hexpected⟩ := hvalid
  have hlength : ((List.range count).map fun i => (first + i) % 2 ^ 16).length = count := by simp
  have hunit := hcode pc 1 index rfl
  have hregs := invokeRegisters_range hcode.head (hcode pc 2 first rfl)
  exact ⟨_, by simp only [Stmt.item?, Stmt.insn?, hm]; rfl,
    by simp only [decodeOpcode, hunit, ok_bind, hm, reference_some, hregs,
      invokeArguments_ok (hlength.trans hexpected)]; rfl⟩

theorem decodeOpcode_line {o : Opcode} {aa : Nat} {rest : List Cell} (h : Legible code d place? pc s)
    (hvalid : s.Valid pool) (hfits : s.Fits) (hform : s.form? pc = some (o, aa, rest)) :
    ∃ item, s.item? pool place? pc = some item ∧ decodeOpcode code pool pc aa o = .ok ⟨item, width rest⟩ := by
  have hcode := h.hasAt hform
  have hreached := h.reached
  rw [Stmt.cells_of_form hform, List.forall_mem_cons] at hreached
  cases s with
  | raw | label | line | tryRange | goto8 => cases hform
  | nop | returnVoid =>
      cases hform
      exact ⟨_, rfl, rfl⟩
  | move kind x y =>
      cases hform
      obtain ⟨hlow, hhigh⟩ := nibbles hfits
      exact ⟨_, rfl, by simp only [decodeOpcode, hlow, hhigh, pure_bind, wideRegister_eq]; rfl⟩
  | ret kind r =>
      cases hform
      exact ⟨_, rfl, by simp only [decodeOpcode, wideRegister_eq]; rfl⟩
  | moveResult kind r | moveException r | monitorEnter r | monitorExit r | throw r =>
      cases hform
      exact ⟨_, rfl, rfl⟩
  | arrayLength x y =>
      cases hform
      obtain ⟨hlow, hhigh⟩ := nibbles hfits
      exact ⟨_, rfl, by simp only [decodeOpcode, hlow, hhigh]; rfl⟩
  | binaryTwo op x y =>
      cases hform
      obtain ⟨hlow, hhigh⟩ := nibbles hfits
      exact ⟨_, rfl, by simp only [decodeOpcode, hlow, hhigh, NumberType.type, binary_eq]; rfl⟩
  | unary n x y =>
      cases hform
      obtain ⟨hlow, hhigh⟩ := nibbles hfits
      obtain ⟨op, source, target, hmeaning, hunary⟩ := unary_eq hvalid pc x y
      exact ⟨_, by simp only [Stmt.item?, Stmt.insn?, hmeaning]; rfl,
        by simp only [decodeOpcode, hlow, hhigh, hunary]; rfl⟩
  | constString r index =>
      cases hform
      obtain ⟨a, ha⟩ := Option.isSome_iff_exists.mp hvalid.2
      have hunit := hcode pc 1 index rfl
      exact ⟨_, by simp only [Stmt.item?, Stmt.insn?, ha]; rfl, by simp only [decodeOpcode, hunit, ok_bind, ha]; rfl⟩
  | constClass r index | checkCast r index | newInstance r index =>
      cases hform
      obtain ⟨a, ha⟩ := Option.isSome_iff_exists.mp hvalid.2
      have hunit := hcode pc 1 index rfl
      exact ⟨_, by simp only [Stmt.item?, Stmt.insn?, ha]; rfl, by simp only [decodeOpcode, hunit, ok_bind, ha]; rfl⟩
  | staticGet kind r index | staticPut kind r index =>
      cases hform
      obtain ⟨a, ha⟩ := Option.isSome_iff_exists.mp hvalid.2
      have hunit := hcode pc 1 index rfl
      exact ⟨_, by simp only [Stmt.item?, Stmt.insn?, ha]; rfl, by simp only [decodeOpcode, hunit, ok_bind, ha]; rfl⟩
  | instanceOf x y index | newArray x y index | instanceGet kind x y index | instancePut kind x y index =>
      cases hform
      obtain ⟨hlow, hhigh⟩ := nibbles hfits
      obtain ⟨a, ha⟩ := Option.isSome_iff_exists.mp hvalid.2
      have hunit := hcode pc 1 index rfl
      exact ⟨_, by simp only [Stmt.item?, Stmt.insn?, ha]; rfl,
        by simp only [decodeOpcode, hunit, ok_bind, ha, hlow, hhigh]; rfl⟩
  | compare variant r x y | arrayGet variant r x y | arrayPut variant r x y | binary op r x y =>
      cases hform
      obtain ⟨-, hx, -⟩ := hfits
      have hunit := hcode pc 1 (x + 256 * y) rfl
      have hlow : (x + 256 * y) % 256 = x := by omega
      have hhigh : (x + 256 * y) / 256 = y := by omega
      exact ⟨_, rfl, by simp only [decodeOpcode, hunit, ok_bind, hlow, hhigh, type_compareKind, type_elementKind,
        NumberType.type, binary_eq]; rfl⟩
  | binaryLiteral variant r x value =>
      cases hform
      obtain ⟨hvariant, hvalue⟩ := hvalid
      obtain ⟨-, hx⟩ := hfits
      have hunit := hcode pc 1 (x + 256 * (value % 256).toNat) rfl
      have hlow : (x + 256 * (value % 256).toNat) % 256 = x := by omega
      have hhigh : (x + 256 * (value % 256).toNat) / 256 = (value % 256).toNat := by omega
      have hsigned : signed 8 (value % 256).toNat = value := signed_toNat (by decide) hvalue
      exact ⟨_, rfl, by simp only [decodeOpcode, hunit, ok_bind, hlow, hhigh, hsigned, binaryLiteral_eq hvariant]; rfl⟩
  | goto16 l =>
      cases hform
      obtain ⟨target, htarget, hjump⟩ := (hreached.2 _ List.mem_cons_self).jumpTarget (by decide) h.low
      have hunit := hcode pc 1 (d.jump pc l % 2 ^ 16).toNat rfl
      exact ⟨_, by simp only [Stmt.item?, Stmt.insn?, htarget]; rfl,
        by simp only [decodeOpcode, hunit, ok_bind, hjump]; rfl⟩
  | ifCmp cmp x y l =>
      cases hform
      obtain ⟨hlow, hhigh⟩ := nibbles hfits
      obtain ⟨target, htarget, hjump⟩ := (hreached.2 _ List.mem_cons_self).jumpTarget (by decide) h.low
      have hunit := hcode pc 1 (d.jump pc l % 2 ^ 16).toNat rfl
      exact ⟨_, by simp only [Stmt.item?, Stmt.insn?, htarget]; rfl,
        by simp only [decodeOpcode, hunit, ok_bind, hjump, hlow, hhigh]; rfl⟩
  | ifZero cmp r l =>
      cases hform
      obtain ⟨target, htarget, hjump⟩ := (hreached.2 _ List.mem_cons_self).jumpTarget (by decide) h.low
      have hunit := hcode pc 1 (d.jump pc l % 2 ^ 16).toNat rfl
      exact ⟨_, by simp only [Stmt.item?, Stmt.insn?, htarget]; rfl,
        by simp only [decodeOpcode, hunit, ok_bind, hjump]; rfl⟩
  | goto32 l =>
      cases hform
      obtain ⟨target, htarget, hjump⟩ := (hreached.2 _ List.mem_cons_self).jumpTarget (by decide) h.low
      have hword : code.word pc (pc + 1) = .ok (d.jump pc l % 2 ^ 32).toNat := hcode.tail.word
      exact ⟨_, by simp only [Stmt.item?, Stmt.insn?, htarget]; rfl,
        by simp only [decodeOpcode, hword, ok_bind, hjump]; rfl⟩
  | const r value => exact ⟨_, rfl, decodeOpcode_const hvalid hform hcode⟩
  | constWide r value => exact ⟨_, rfl, decodeOpcode_constWide hvalid hform hcode⟩
  | packedSwitch r first targets => exact decodeOpcode_packedSwitch h hform
  | sparseSwitch r cases => exact decodeOpcode_sparseSwitch h hvalid hform
  | invoke kind index regs => exact decodeOpcode_invoke h hvalid hfits hform
  | invokeRange kind index first count => exact decodeOpcode_invokeRange h hvalid hform

theorem decodeAt_line (h : Legible code d place? pc s) (hvalid : s.Valid pool) (hfits : s.Fits)
    (hloud : s.silent = false) :
    ∃ item, s.item? pool place? pc = some item ∧ decodeAt code pool pc = .ok ⟨item, width (s.cells pc) - 1⟩ := by
  have hcode := h.cells
  rcases Stmt.form_cases hvalid pc with hsilent | ⟨l, rfl⟩ | ⟨o, aa, rest, hform⟩
  · rw [hloud] at hsilent
    cases hsilent
  · obtain ⟨target, htarget, hjump⟩ := (h.reached _ List.mem_cons_self).jumpTarget (by decide) h.low
    refine ⟨_, by simp only [Stmt.item?, Stmt.insn?, htarget]; rfl, ?_⟩
    have hopcode : decodeAt code pool pc = decodeOpcode code pool pc (d.jump pc l % 2 ^ 8).toNat .goto8 :=
      decodeAt_opcode pool (by decide) hcode
    simp only [hopcode, decodeOpcode, hjump, ok_bind]
    rfl
  · obtain ⟨item, hitem, hdecode⟩ := decodeOpcode_line h hvalid hfits hform
    rw [Stmt.cells_of_form hform] at hcode ⊢
    refine ⟨item, hitem, ?_⟩
    rw [decodeAt_opcode pool (Stmt.form_sound hvalid hfits hform).1 hcode, hdecode, width_cons, Cell.size_unit,
      Nat.add_sub_cancel_left]

end JavaLift.Dalvik
