import JavaLift.Dalvik.Decoder
import JavaLift.Proofs.Dalvik.Lines

namespace JavaLift.Dalvik

variable {code : Code} {d : Distances} {cs : List Cell} {us vs : List Nat} {pos pc u bits : Nat} {x : Int}
  {place? : String → Option Nat} {l : String}

def HasAt (code : Code) (pos : Nat) (us : List Nat) : Prop :=
  ∀ pc i u, us[i]? = some u → code.unit pc (pos + i) = .ok u

namespace HasAt

theorem append (h : HasAt code pos (us ++ vs)) : HasAt code pos us ∧ HasAt code (pos + us.length) vs := by
  refine ⟨fun pc i u hu => ?_, fun pc i u hu => ?_⟩
  · exact h pc i u (by rw [List.getElem?_append_left (List.getElem?_eq_some_iff.mp hu).1, hu])
  · rw [Nat.add_assoc]
    exact h pc _ u (by rw [List.getElem?_append_right (Nat.le_add_right _ _), Nat.add_sub_cancel_left, hu])

theorem head (h : HasAt code pos (u :: us)) : code.unit pc pos = .ok u := h pc 0 u rfl

theorem tail (h : HasAt code pos (u :: us)) : HasAt code (pos + 1) us := by
  intro pc i v hv
  rw [Nat.add_assoc, Nat.add_comm 1]
  exact h pc (i + 1) v hv

theorem word (h : HasAt code pos (Assembler.wordUnits x ++ us)) : code.word pc pos = .ok (x % 2 ^ 32).toNat := by
  have hlow : code.unit pc pos = .ok (x % 2 ^ 16).toNat := h pc 0 _ rfl
  have hhigh : code.unit pc (pos + 1) = .ok (x / 2 ^ 16 % 2 ^ 16).toNat := h pc 1 _ rfl
  have hsum : (x % 2 ^ 16).toNat + 65536 * (x / 2 ^ 16 % 2 ^ 16).toNat = (x % 2 ^ 32).toNat := by omega
  simp only [Code.word, hlow, hhigh, ← hsum]
  rfl

theorem words {α : Type} {f : α → Int} {xs : List α}
    (h : HasAt code pos (xs.flatMap fun x => Assembler.wordUnits (f x))) {i : Nat} {x : α} (hx : xs[i]? = some x) : code.word pc (pos + 2 * i) = .ok (f x % 2 ^ 32).toNat := by
  induction xs generalizing pos i with
  | nil => cases hx
  | cons x' xs ih =>
      rw [List.flatMap_cons] at h
      cases i with
      | zero =>
          cases hx
          exact h.word
      | succ i =>
          have hrest := ih h.append.2 hx
          rw [show pos + 2 * (i + 1) = pos + 2 + 2 * i by omega]
          exact hrest

end HasAt

theorem Cell.units_lt (d : Distances) {c : Cell} (h : c.Sound) : ∀ u ∈ c.units d, u < 2 ^ 16 := by
  cases c with
  | unit n => exact List.forall_mem_singleton.mpr h
  | near opcode pc l =>
      simp only [Cell.Sound] at h
      refine List.forall_mem_singleton.mpr ?_
      omega
  | half pc l =>
      refine List.forall_mem_singleton.mpr ?_
      omega
  | word pc l => exact Assembler.wordUnits_lt _
  | table pc => exact Assembler.wordUnits_lt _

theorem hasAt_spell (h : code.toList = (spell d cs).map UInt16.ofNat) (hsound : ∀ c ∈ cs, c.Sound) :
    HasAt code 0 (spell d cs) := by
  intro pc i u hu
  obtain ⟨c, hc, hmem⟩ := List.mem_flatMap.mp (List.mem_of_getElem? hu)
  have hlt : u < 2 ^ 16 := Cell.units_lt d (hsound c hc) u hmem
  have hunit : code[i]? = some (UInt16.ofNat u) := by
    rw [← Array.getElem?_toList, h, List.getElem?_map, hu]
    rfl
  rw [Nat.zero_add, Code.unit, hunit]
  exact congrArg Except.ok (UInt16.toNat_ofNat_of_lt' hlt)

/-- A number that fits is read back from its bits. -/
theorem signed_toNat (hbits : 0 < bits) (h : FitsIn bits x) : signed bits (x % 2 ^ bits).toNat = x := by
  have hpow : (2 : Int) ^ bits = 2 * 2 ^ (bits - 1) := by
    rw [← pow_succ', Nat.sub_add_cancel hbits]
  have hnonneg : 0 ≤ x % 2 ^ bits := Int.emod_nonneg _ (by positivity)
  obtain ⟨hlow, hhigh⟩ := h
  rw [signed, Nat.one_shiftLeft, Int.toNat_of_nonneg hnonneg,
    show ((2 : Int) ^ bits) = ((2 ^ bits : Nat) : Int) by simp, Int.emod_bmod]
  refine Int.bmod_eq_of_le_mul_two ?_ ?_ <;> push_cast <;> omega

theorem Leads.jumpTarget (h : Leads place? d bits pc l) (hbits : 0 < bits ∧ bits ≤ 32) (hpc : pc < 2 ^ 31) :
    ∃ place, place? l = some place ∧
      jumpTarget pc (signed bits (d.jump pc l % 2 ^ bits).toNat) = .ok place := by
  obtain ⟨place, hplace, hdistance, hfits⟩ := h
  refine ⟨place, hplace, ?_⟩
  have hpow : (2 : Int) ^ (bits - 1) ≤ 2 ^ 31 := pow_le_pow_right₀ (by decide) (by omega)
  have hhigh := hfits.2
  rw [signed_toNat hbits.1 hfits, JavaLift.jumpTarget, if_pos (by omega), hdistance]
  congr 1
  omega

-- The proof is in brackets to keep `simp` from leaving its steps to the kernel, which would look into both sides.
@[simp] theorem ok_bind {ε α β : Type} (a : α) (f : α → Except ε β) : (Except.ok a : Except ε α) >>= f = f a := (rfl)

@[simp] theorem Code.inPayload_ok {α : Type} (pc : Nat) (defect : PayloadDefect) (a : α) :
    Code.inPayload pc defect (.ok a) = .ok a := rfl

@[simp] theorem width_units (us : List Nat) : width (us.map .unit) = us.length := by
  induction us with
  | nil => rfl
  | cons u us ih =>
      rw [List.map_cons, width_cons, ih, List.length_cons, Nat.add_comm]
      rfl

@[simp] theorem width_words (pc : Nat) (targets : List String) :
    width (targets.map (.word pc)) = 2 * targets.length := by
  induction targets with
  | nil => rfl
  | cons l targets ih => rw [List.map_cons, width_cons, ih, List.length_cons, Cell.size, Nat.mul_succ, Nat.add_comm]

theorem width_cells (w : PendingSwitch) : width w.cells = w.header.length + 2 * w.targets.length := by
  rw [PendingSwitch.cells, width_append, width_units, width_words]

theorem le_width_cells (w : PendingSwitch) : 2 ≤ width w.cells := by
  rw [width_cells]
  refine Nat.le_add_right_of_le ?_
  unfold PendingSwitch.header
  cases w.keys <;> simp

theorem length_header_packed (pc : Nat) (first : Int) (targets : List String) :
    (PendingSwitch.header ⟨pc, .packed first, targets⟩).length = 4 := rfl

theorem length_header_sparse (pc : Nat) (keys : List Int) (targets : List String) :
    (PendingSwitch.header ⟨pc, .sparse keys, targets⟩).length = 2 * keys.length + 2 := by
  simp [PendingSwitch.header, Assembler.wordUnits, Nat.mul_comm]

def PendingSwitch.Matched (w : PendingSwitch) : Prop :=
  ∀ keys, w.keys = .sparse keys → keys.length = w.targets.length

theorem spell_units (d : Distances) (us : List Nat) : spell d (us.map .unit) = us := by
  induction us with
  | nil => rfl
  | cons u us ih =>
      rw [List.map_cons, spell_cons, ih]
      rfl

theorem spell_words (d : Distances) (pc : Nat) (targets : List String) :
    spell d (targets.map (.word pc)) = targets.flatMap fun l => Assembler.wordUnits (d.jump pc l) := by
  induction targets with
  | nil => rfl
  | cons l targets ih =>
      rw [List.map_cons, spell_cons, ih]
      rfl

/-- A table stands at a position, and its switch has the distance to it. -/
structure TableAt (code : Code) (d : Distances) (w : PendingSwitch) (start : Nat) : Prop where
  cells : HasAt code start (spell d w.cells)
  distance : d.table w.pc = (start : Int) - w.pc
  inside : start + width w.cells ≤ code.size

/-- If each step succeeds with its own result, all of them together do. -/
theorem mapM_range {α ε : Type} {f : Nat → Except ε α} {l : List α} (h : ∀ i a, l[i]? = some a → f i = .ok a) :
    (List.range l.length).mapM f = .ok l := by
  have hgo (k : Nat) (l : List α) (h : ∀ i a, l[i]? = some a → f (k + i) = .ok a) :
      (List.range' k l.length).mapM f = .ok l := by
    induction l generalizing k with
    | nil => rfl
    | cons a l ih =>
        have hrest : (List.range' (k + 1) l.length).mapM f = .ok l := ih (k + 1) fun i b hb => by
          rw [Nat.add_assoc, Nat.add_comm 1]
          exact h (i + 1) b hb
        rw [List.length_cons, List.range'_succ, List.mapM_cons, show f k = .ok a from h 0 a rfl, hrest]
        rfl
  rw [List.range_eq_range']
  exact hgo 0 l fun i a hi => by rw [Nat.zero_add]; exact h i a hi

theorem decodeAt_opcode (pool : Pool) {o : Opcode} {aa : Nat} (ho : o ∈ Opcode.all)
    (h : HasAt code pc ((o.byte + 256 * aa) :: us)) : decodeAt code pool pc = decodeOpcode code pool pc aa o := by
  have hbyte : (o.byte + 256 * aa) % 256 = o.byte := by
    rw [Nat.add_mul_mod_self_left, Nat.mod_eq_of_lt (Opcode.byte_lt o ho)]
  have haa : (o.byte + 256 * aa) / 256 = aa := by
    rw [Nat.add_mul_div_left _ _ (by decide), Nat.div_eq_of_lt (Opcode.byte_lt o ho), Nat.zero_add]
  rw [decodeAt, h.head, ok_bind, hbyte, haa, Opcode.ofByte?_byte o ho]

theorem decodeFrom_step {pool : Pool} {done done' : List Insn} {item : Item} {tail : Nat} (hlt : pc < code.size)
    (hitem : decodeAt code pool pc = .ok ⟨item, tail⟩) (hadd : addItem done pc item = .ok done') :
    decodeFrom code pool done pc = decodeFrom code pool done' (pc + 1 + tail) := by
  rw [decodeFrom, if_pos hlt, hitem]
  simp only [hadd]

/-- What begins with the number of a table is passed over as one. -/
theorem decodeAt_table (pool : Pool) {start ident length : Nat}
    (hkind : ident % 256 = 0 ∧ ident / 256 ≠ 0 ∧ ident / 256 ≤ 3) (hident : code.unit start start = .ok ident)
    (hsize : code.payloadSize start = .ok length) : decodeAt code pool start = .ok ⟨.payload, length - 1⟩ := by
  have hnop : Opcode.ofByte? 0 = some .nop := Opcode.ofByte?_byte .nop (by decide)
  rw [decodeAt, hident, ok_bind, hkind.1, hnop]
  simp only [decodeOpcode]
  rw [if_neg hkind.2.1, if_pos hkind.2.2, hsize]
  rfl

namespace TableAt

variable {w : PendingSwitch} {start : Nat}

theorem header (h : TableAt code d w start) : HasAt code start w.header := by
  have hcells := h.cells
  rw [PendingSwitch.cells, spell_append, spell_units] at hcells
  exact hcells.append.1

theorem targets (h : TableAt code d w start) :
    HasAt code (start + w.header.length) (spell d (w.targets.map (.word w.pc))) := by
  have hcells := h.cells
  rw [PendingSwitch.cells, spell_append, spell_units] at hcells
  exact hcells.append.2

theorem fits (h : TableAt code d w start) (hsize : code.size ≤ 2 ^ 31) (hpc : w.pc < 2 ^ 31) :
    FitsIn 32 (d.table w.pc) := by
  have hwidth := le_width_cells w
  have hinside := h.inside
  rw [h.distance]
  constructor <;> omega

theorem payloadStart (h : TableAt code d w start) : code.payloadStart w.pc (d.table w.pc) = .ok start := by
  have hwidth := le_width_cells w
  have hinside := h.inside
  rw [Code.payloadStart, h.distance, if_pos (by omega)]
  congr 1
  omega

def LeadTo (d : Distances) (pc : Nat) : List String → List Nat → Prop :=
  List.Forall₂ fun l place => jumpTarget pc (signed 32 (d.jump pc l % 2 ^ 32).toNat) = .ok place

theorem cases_eq {read : Nat → Except DecodeFault (Int × Nat)} {keys : List Int} {targets : List String}
    {places : List Nat} (hread : ∀ i k, keys[i]? = some k → read i = code.switchCase pc (pos + 2 * i) k)
    (hlength : keys.length = targets.length) (hcode : HasAt code pos (spell d (targets.map (.word pc))))
    (hplaces : LeadTo d pc targets places) : (List.range targets.length).mapM read = .ok (keys.zip places) := by
  have hzip : (keys.zip places).length = targets.length := by
    rw [List.length_zip, hlength, hplaces.length_eq, Nat.min_self]
  rw [← hzip]
  refine mapM_range fun i c hc => ?_
  obtain ⟨k, p⟩ := c
  obtain ⟨hk, hp⟩ := List.getElem?_zip_eq_some.mp hc
  obtain ⟨hi, rfl⟩ := List.getElem?_eq_some_iff.mp hp
  have hl : i < targets.length := hplaces.length_eq ▸ hi
  have htarget : jumpTarget pc (signed 32 (d.jump pc targets[i] % 2 ^ 32).toNat) = .ok places[i] := hplaces.get hl hi
  rw [spell_words] at hcode
  have hword : code.word pc (pos + 2 * i) = .ok (d.jump pc targets[i] % 2 ^ 32).toNat :=
    hcode.words (List.getElem?_eq_getElem hl)
  rw [hread i k hk]
  exact bind_eq_ok.mpr ⟨_, by rw [hword]; rfl, bind_eq_ok.mpr ⟨_, htarget, rfl⟩⟩

theorem places_of_leads {targets : List String} (h : ∀ l ∈ targets, Leads place? d 32 pc l) (hpc : pc < 2 ^ 31) :
    ∃ places, targets.mapM place? = some places ∧ LeadTo d pc targets places := by
  induction targets with
  | nil => exact ⟨[], rfl, .nil⟩
  | cons l targets ih =>
      rw [List.forall_mem_cons] at h
      obtain ⟨p, hplace, htarget⟩ := h.1.jumpTarget (by decide) hpc
      obtain ⟨places, hplaces, hall⟩ := ih h.2
      exact ⟨p :: places, by simp [hplace, hplaces], .cons htarget hall⟩

theorem packedKey (first : Int) (i : Nat) :
    signed 32 ((first % 2 ^ 32).toNat + i) = Int.bmod (first + i) (2 ^ 32) := by
  rw [signed, Nat.one_shiftLeft, ← Int.emod_bmod, ← Int.emod_bmod (first + i)]
  congr 1
  omega

/-- The table of a packed switch gives the numbers from the first one on. -/
theorem readPacked {first : Int} {targets : List String} {places : List Nat}
    (h : TableAt code d ⟨pc, .packed first, targets⟩ start) (hplaces : LeadTo d pc targets places) :
    code.readSwitch pc (d.table pc)
      = .ok (((List.range targets.length).map fun i : Nat => Int.bmod (first + i) (2 ^ 32)).zip places) := by
  have hident : code.unit pc start = .ok Code.packedIdent := h.header pc 0 _ rfl
  have hsize : code.unit pc (start + 1) = .ok targets.length := h.header pc 1 _ rfl
  have hfirst : code.word pc (start + 2) = .ok (first % 2 ^ 32).toNat := by
    have hrest : HasAt code (start + 2) (Assembler.wordUnits first) := h.header.append.2
    rw [← List.append_nil (Assembler.wordUnits first)] at hrest
    exact hrest.word
  refine bind_eq_ok.mpr ⟨_, h.payloadStart, bind_eq_ok.mpr ⟨_, by rw [hident]; rfl, ?_⟩⟩
  refine bind_eq_ok.mpr ⟨_, by rw [hsize]; rfl, ?_⟩
  rw [if_pos rfl]
  refine bind_eq_ok.mpr ⟨_, by rw [hfirst]; rfl, cases_eq (fun i k hk => ?_) (by simp) h.targets hplaces⟩
  rw [List.getElem?_map, Option.map_eq_some_iff] at hk
  obtain ⟨j, hj, rfl⟩ := hk
  obtain ⟨-, rfl⟩ := List.getElem?_eq_some_iff.mp hj
  rw [List.getElem_range, packedKey]
  rfl

theorem readSparse {keys : List Int} {targets : List String} {places : List Nat}
    (h : TableAt code d ⟨pc, .sparse keys, targets⟩ start) (hkeys : ∀ k ∈ keys, FitsIn 32 k)
    (hlength : keys.length = targets.length) (hplaces : LeadTo d pc targets places) :
    code.readSwitch pc (d.table pc) = .ok (keys.zip places) := by
  have hident : code.unit pc start = .ok Code.sparseIdent := h.header pc 0 _ rfl
  have hsize : code.unit pc (start + 1) = .ok targets.length := h.header pc 1 _ rfl
  have hwords : HasAt code (start + 2) (keys.flatMap Assembler.wordUnits) := h.header.append.2
  have htargets : HasAt code (start + 2 + 2 * targets.length) (spell d (targets.map (.word pc))) := by
    rw [Nat.add_assoc, ← hlength, Nat.add_comm 2, ← length_header_sparse pc keys targets]
    exact h.targets
  refine bind_eq_ok.mpr ⟨_, h.payloadStart, bind_eq_ok.mpr ⟨_, by rw [hident]; rfl, ?_⟩⟩
  refine bind_eq_ok.mpr ⟨_, by rw [hsize]; rfl, ?_⟩
  rw [if_neg (by decide), if_pos rfl]
  refine cases_eq (fun i k hk => ?_) hlength htargets hplaces
  have hword : code.word pc (start + 2 + 2 * i) = .ok (k % 2 ^ 32).toNat := hwords.words (f := fun k => k) hk
  have hkey : signed 32 (k % 2 ^ 32).toNat = k := signed_toNat (by decide) (hkeys k (List.mem_of_getElem? hk))
  rw [hword, Code.inPayload_ok, ok_bind, hkey]

theorem decodeAt_payload (pool : Pool) (h : TableAt code d w start) (hmatched : w.Matched) :
    decodeAt code pool start = .ok ⟨.payload, width w.cells - 1⟩ := by
  have hinside : ¬ code.size < start + width w.cells := Nat.not_lt.mpr h.inside
  rw [width_cells] at hinside ⊢
  obtain ⟨pc, keys, targets⟩ := w
  have hsize : code.unit start (start + 1) = .ok targets.length := by cases keys <;> exact h.header start 1 _ rfl
  cases keys with
  | packed first =>
      have hident : code.unit start start = .ok Code.packedIdent := h.header start 0 _ rfl
      have hlength : 4 + 2 * targets.length = targets.length * 2 + 4 := by omega
      rw [length_header_packed, hlength] at hinside ⊢
      refine decodeAt_table pool (by decide) hident ?_
      rw [Code.payloadSize, hident, ok_bind, hsize, ok_bind, if_pos rfl]
      exact bind_eq_ok.mpr ⟨_, rfl, if_neg hinside⟩
  | sparse keys =>
      have hident : code.unit start start = .ok Code.sparseIdent := h.header start 0 _ rfl
      have hlength : 2 * keys.length + 2 + 2 * targets.length = targets.length * 4 + 2 := by
        have hkeys : keys.length = targets.length := hmatched keys rfl
        omega
      rw [length_header_sparse, hlength] at hinside ⊢
      refine decodeAt_table pool (by decide) hident ?_
      rw [Code.payloadSize, hident, ok_bind, hsize, ok_bind, if_neg (by decide), if_pos rfl]
      exact bind_eq_ok.mpr ⟨_, rfl, if_neg hinside⟩

end TableAt

variable {switches : List PendingSwitch}

structure TablesAt (code : Code) (d : Distances) (pos : Nat) (switches : List PendingSwitch) : Prop where
  cells : HasAt code pos (spell d (tablesFrom pos switches))
  distances : ∀ p ∈ tableStarts pos switches, d.table p.2.pc = (p.1 : Int) - p.2.pc
  inside : pos + width (tablesFrom pos switches) = code.size

namespace TablesAt

theorem uncons {w : PendingSwitch} (h : TablesAt code d pos (w :: switches)) :
    HasAt code pos (spell d (padding pos)) ∧ TableAt code d w (pos + width (padding pos)) ∧
      TablesAt code d (pos + width (padding pos) + width w.cells) switches := by
  obtain ⟨hcells, hdistances, hinside⟩ := h
  rw [tablesFrom, spell_append, spell_append, List.append_assoc] at hcells
  rw [tableStarts, List.forall_mem_cons] at hdistances
  rw [tablesFrom, width_append, width_append] at hinside
  obtain ⟨hpadding, hrest⟩ := hcells.append
  rw [length_spell] at hrest
  obtain ⟨htable, hrest⟩ := hrest.append
  rw [length_spell] at hrest
  exact ⟨hpadding, ⟨htable, hdistances.1, by omega⟩, hrest, hdistances.2, by omega⟩

theorem exists_tableAt (h : TablesAt code d pos switches) : ∀ w ∈ switches, ∃ start, TableAt code d w start := by
  induction switches generalizing pos with
  | nil => nofun
  | cons w rest ih =>
      obtain ⟨-, htable, hrest⟩ := h.uncons
      rw [List.forall_mem_cons]
      exact ⟨⟨_, htable⟩, ih hrest⟩

/-- Of the tables only the padding is read as instructions. -/
theorem decodeFrom (h : TablesAt code d pos switches) (hmatched : ∀ w ∈ switches, w.Matched) (pool : Pool)
    (done : List Insn) :
    ∃ nops, Dalvik.decodeFrom code pool done pos = .ok (done.reverse ++ nops) ∧
      ∀ i ∈ nops, ∃ place, i = .of .nop [] none place ∧ pos ≤ place ∧ place % 2 = 1 := by
  induction switches generalizing pos done with
  | nil =>
      have hend : ¬ pos < code.size := by
        rw [← h.inside]
        exact Nat.lt_irrefl pos
      refine ⟨[], ?_, nofun⟩
      rw [Dalvik.decodeFrom, if_neg hend, List.append_nil]
  | cons w rest ih =>
      obtain ⟨hpadding, htable, hrest⟩ := h.uncons
      rw [List.forall_mem_cons] at hmatched
      have hwidth : 0 < width w.cells := Nat.lt_of_lt_of_le (by decide) (le_width_cells w)
      have hskip (done : List Insn) : Dalvik.decodeFrom code pool done (pos + width (padding pos))
          = Dalvik.decodeFrom code pool done (pos + width (padding pos) + width w.cells) := by
        have hinside := htable.inside
        rw [decodeFrom_step (by omega) (htable.decodeAt_payload pool hmatched.1) rfl]
        congr 1
        omega
      by_cases heven : pos % 2 = 0
      · have hnone : pos + width (padding pos) = pos := by simp [padding, heven]
        obtain ⟨nops, hnops, hall⟩ := ih hrest hmatched.2 done
        rw [hnone] at hskip hnops hall
        exact ⟨nops, (hskip done).trans hnops, fun i hi => (hall i hi).imp fun p hp => ⟨hp.1, by omega, hp.2.2⟩⟩
      · have hone : padding pos = [.unit 0] := if_neg heven
        have hlt : pos < code.size := by
          have hinside := htable.inside
          omega
        rw [hone] at hpadding
        have hunit : HasAt code pos [Opcode.nop.byte + 256 * 0] := hpadding
        have hnop : decodeAt code pool pos = .ok ⟨.insn (.of .nop [] none pos), 0⟩ :=
          decodeAt_opcode pool (by decide) hunit
        obtain ⟨nops, hnops, hall⟩ := ih hrest hmatched.2 (.of .nop [] none pos :: done)
        refine ⟨.of .nop [] none pos :: nops, ?_, ?_⟩
        · rw [hone] at hskip hnops
          rw [decodeFrom_step hlt hnop rfl]
          refine ((hskip _).trans hnops).trans ?_
          rw [List.reverse_cons, List.append_assoc]
          rfl
        · rw [List.forall_mem_cons]
          refine ⟨⟨pos, rfl, le_rfl, by omega⟩, fun i hi => (hall i hi).imp fun p hp => ⟨hp.1, ?_, hp.2.2⟩⟩
          have hle := hp.2.1
          omega

end TablesAt

end JavaLift.Dalvik
