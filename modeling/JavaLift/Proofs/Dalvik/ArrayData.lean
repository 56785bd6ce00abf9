import JavaLift.Proofs.Dalvik.Reading

namespace JavaLift.Dalvik

variable {code : Code} {bytes more : List UInt8} {pc start width i : Nat} {pad : UInt8} {values : List Int}

def littleEndian : Nat → Nat → List UInt8
  | 0, _ => []
  | width + 1, n => UInt8.ofNat (n % 256) :: littleEndian width (n / 256)

def elementBytes (width : Nat) (x : Int) : List UInt8 := littleEndian width (x % 2 ^ (8 * width)).toNat

/-- The bytes, filled up to whole units. -/
def padded (pad : UInt8) (bytes : List UInt8) : List UInt8 := bytes ++ List.replicate (bytes.length % 2) pad

/-- The units of array data: what it is, how many bytes an element has, how many elements there are, and their bytes. -/
def arrayPayload (pad : UInt8) (width : Nat) (values : List Int) : List UInt16 :=
  [UInt16.ofNat Code.arrayIdent, UInt16.ofNat width, UInt16.ofNat values.length, UInt16.ofNat (values.length / 2 ^ 16)]
    ++ unitsOf (padded pad (values.flatMap (elementBytes width)))

theorem length_littleEndian (width n : Nat) : (littleEndian width n).length = width := by
  induction width generalizing n with
  | zero => rfl
  | succ width ih => rw [littleEndian, List.length_cons, ih]

theorem length_elementBytes (width : Nat) (x : Int) : (elementBytes width x).length = width :=
  length_littleEndian width _

theorem length_flatMap_elementBytes (width : Nat) (values : List Int) :
    (values.flatMap (elementBytes width)).length = values.length * width := by
  induction values with
  | nil => exact (Nat.zero_mul width).symm
  | cons x values ih =>
      rw [List.flatMap_cons, List.length_append, length_elementBytes, ih, List.length_cons, Nat.succ_mul, Nat.add_comm]

theorem length_padded (pad : UInt8) (bytes : List UInt8) :
    (padded pad bytes).length = bytes.length + bytes.length % 2 := by
  rw [padded, List.length_append, List.length_replicate]

theorem length_unitsOf (bytes : List UInt8) : (unitsOf bytes).length = bytes.length / 2 := by
  fun_induction unitsOf bytes with
  | case1 lo hi rest ih =>
      simp only [List.length_cons, ih]
      omega
  | case2 bytes hshort =>
      match bytes with
      | [] | [_] => simp
      | b :: c :: rest => exact absurd rfl (hshort b c rest)

theorem length_arrayPayload (pad : UInt8) (width : Nat) (values : List Int) :
    (arrayPayload pad width values).length = (values.length * width + 1) / 2 + 4 := by
  simp only [arrayPayload, List.length_append, length_unitsOf, length_padded, length_flatMap_elementBytes,
    List.length_cons, List.length_nil]
  omega

theorem toNat_pair (lo hi : UInt8) : (lo.toUInt16 + 256 * hi.toUInt16).toNat = lo.toNat + 256 * hi.toNat := by
  have hlo := lo.toNat_lt
  have hhi := hi.toNat_lt
  simp only [UInt16.toNat_add, UInt16.toNat_mul, UInt8.toNat_toUInt16, UInt16.reduceToNat]
  omega

/-- A byte is read back from the half of the unit that it is in. -/
theorem unitsOf_byte {b : UInt8} (heven : bytes.length % 2 = 0) (hb : bytes[i]? = some b) :
    ∃ u, (unitsOf bytes)[i / 2]? = some u ∧ (if i % 2 = 0 then u.toNat % 256 else u.toNat / 256) = b.toNat := by
  fun_induction unitsOf bytes generalizing i with
  | case1 lo hi rest ih =>
      have hlo := lo.toNat_lt
      match i with
      | 0 =>
          cases hb
          refine ⟨_, rfl, ?_⟩
          rw [if_pos rfl, toNat_pair]
          omega
      | 1 =>
          cases hb
          refine ⟨_, rfl, ?_⟩
          rw [if_neg (by decide), toNat_pair]
          omega
      | i + 2 =>
          obtain ⟨u, hu, hbyte⟩ := ih ((Nat.add_mod_right _ _).symm.trans heven) hb
          refine ⟨u, ?_, ?_⟩
          · rwa [Nat.add_div_right _ Nat.two_pos, List.getElem?_cons_succ]
          · rwa [Nat.add_mod_right]
  | case2 bytes hshort =>
      rcases bytes with _ | ⟨b, _ | ⟨c, rest⟩⟩
      · cases hb
      · cases heven
      · exact absurd rfl (hshort b c rest)

def BytesAt (code : Code) (start i : Nat) (bytes : List UInt8) : Prop :=
  ∀ pc j b, bytes[j]? = some b → code.dataByte pc start (i + j) = .ok b.toNat

theorem BytesAt.append (h : BytesAt code start i (bytes ++ more)) :
    BytesAt code start i bytes ∧ BytesAt code start (i + bytes.length) more := by
  refine ⟨fun pc j b hb => ?_, fun pc j b hb => ?_⟩
  · exact h pc j b (by rw [List.getElem?_append_left (List.getElem?_eq_some_iff.mp hb).1, hb])
  · rw [Nat.add_assoc]
    exact h pc _ b (by rw [List.getElem?_append_right (Nat.le_add_right _ _), Nat.add_sub_cancel_left, hb])

theorem bytesAt_units (heven : bytes.length % 2 = 0) (h : HasAt code start ((unitsOf bytes).map UInt16.toNat)) :
    BytesAt code start 0 bytes := by
  intro pc i b hb
  obtain ⟨u, hu, hbyte⟩ := unitsOf_byte heven hb
  have hunit : code.unit pc (start + i / 2) = .ok u.toNat := h pc (i / 2) _ (by rw [List.getElem?_map, hu]; rfl)
  rw [Nat.zero_add, Code.dataByte, hunit, Code.inPayload_ok, ok_bind, hbyte]
  rfl

theorem dataNumber_littleEndian {n : Nat} (h : BytesAt code start i (littleEndian width n)) :
    code.dataNumber pc start width i = .ok (n % 256 ^ width) := by
  induction width generalizing i n with
  | zero => rw [Code.dataNumber, pow_zero, Nat.mod_one]
  | succ width ih =>
      have hlow : code.dataByte pc start i = .ok (n % 256) := by
        have hbyte := h pc 0 _ rfl
        rwa [Nat.add_zero, UInt8.toNat_ofNat_of_lt' (Nat.mod_lt n (by decide))] at hbyte
      have hbytes : BytesAt code start i ([UInt8.ofNat (n % 256)] ++ littleEndian width (n / 256)) := h
      have hrest : BytesAt code start (i + 1) (littleEndian width (n / 256)) := hbytes.append.2
      rw [Code.dataNumber, hlow, ok_bind, ih hrest, ok_bind, pow_succ', Nat.mod_mul]
      rfl

theorem signed_dataNumber {x : Int} (hwidth : 0 < width) (hx : FitsIn (8 * width) x)
    (h : BytesAt code start i (elementBytes width x)) :
    ∃ n, code.dataNumber pc start width i = .ok n ∧ signed (8 * width) n = x := by
  refine ⟨_, dataNumber_littleEndian h, ?_⟩
  have hlt : (x % 2 ^ (8 * width)).toNat < 256 ^ width := by
    have hpow : (2 : Int) ^ (8 * width) = ((256 ^ width : Nat) : Int) := by
      rw [pow_mul]
      push_cast
      rfl
    have hpos : 0 < 256 ^ width := by positivity
    rw [hpow, Int.toNat_lt' hpos]
    exact Int.emod_lt_of_pos _ (Int.natCast_pos.mpr hpos)
  rw [Nat.mod_eq_of_lt hlt]
  exact signed_toNat (by omega) hx

theorem dataElements_elementBytes {e : Nat} (hwidth : 0 < width) (hfits : ∀ x ∈ values, FitsIn (8 * width) x)
    (h : BytesAt code start (e * width) (values.flatMap (elementBytes width))) :
    code.dataElements pc start width values.length e = .ok values := by
  induction values generalizing e with
  | nil => rfl
  | cons x values ih =>
      rw [List.forall_mem_cons] at hfits
      rw [List.flatMap_cons] at h
      obtain ⟨hx, hvalues⟩ := h.append
      rw [length_elementBytes, ← Nat.succ_mul] at hvalues
      obtain ⟨n, hn, hsigned⟩ : ∃ n, code.dataNumber pc start width (e * width) = .ok n ∧ signed (8 * width) n = x :=
        signed_dataNumber hwidth hfits.1 hx
      rw [List.length_cons, Code.dataElements, hn, ok_bind, ih hfits.2 hvalues, ok_bind, hsigned]
      rfl

theorem hasAt_unit {u : Nat} (h : code.unit pc start = .ok u) : HasAt code start [u] := by
  intro pc' i v hv
  obtain ⟨hi, rfl⟩ := List.getElem?_eq_some_iff.mp hv
  obtain rfl : i = 0 := Nat.lt_one_iff.mp hi
  unfold Code.unit at h ⊢
  rw [Nat.add_zero]
  split at h
  · exact h
  · cases h

structure ArrayAt (code : Code) (start : Nat) (pad : UInt8) (width : Nat) (values : List Int) : Prop where
  units : HasAt code start ((arrayPayload pad width values).map UInt16.toNat)
  inside : start + (arrayPayload pad width values).length ≤ code.size
  isWidth : width ∈ [1, 2, 4, 8]
  fits : ∀ x ∈ values, FitsIn (8 * width) x
  count : values.length < 2 ^ 32

namespace ArrayAt

theorem ident (h : ArrayAt code start pad width values) : code.unit pc start = .ok Code.arrayIdent := h.units pc 0 _ rfl

theorem width_eq (h : ArrayAt code start pad width values) : code.unit pc (start + 1) = .ok width := by
  have hlt : width < 2 ^ 16 := by
    have hle : ∀ w ∈ [1, 2, 4, 8], w < 2 ^ 16 := by decide
    exact hle width h.isWidth
  rw [h.units pc 1 _ rfl, UInt16.toNat_ofNat_of_lt' hlt]

theorem count_eq (h : ArrayAt code start pad width values) : code.word pc (start + 2) = .ok values.length := by
  have hcount := h.count
  have hlow : code.unit pc (start + 2) = .ok (values.length % 2 ^ 16) := h.units pc 2 _ rfl
  have hhigh : code.unit pc (start + 3) = .ok (values.length / 2 ^ 16 % 2 ^ 16) := h.units pc 3 _ rfl
  have hsum : values.length % 2 ^ 16 + 65536 * (values.length / 2 ^ 16 % 2 ^ 16) = values.length := by omega
  rw [Code.word, hlow, ok_bind, hhigh, ok_bind, hsum]
  rfl

theorem dataElements (h : ArrayAt code start pad width values) :
    code.dataElements pc (start + 4) width values.length 0 = .ok values := by
  have hpos : 0 < width := by
    have hpos : ∀ w ∈ [1, 2, 4, 8], 0 < w := by decide
    exact hpos width h.isWidth
  have hunits := h.units
  rw [arrayPayload, List.map_append] at hunits
  have hbytes := bytesAt_units (by rw [length_padded]; omega) hunits.append.2
  refine dataElements_elementBytes hpos h.fits ?_
  rw [Nat.zero_mul]
  exact hbytes.append.1

theorem readArray (h : ArrayAt code start pad width values) {distance : Int} (hstart : pc + distance = start) :
    code.readArray pc distance = .ok (width, values) := by
  have hinside := h.inside
  have hlength := length_arrayPayload pad width values
  have hplace : code.payloadStart pc distance = .ok start := by
    rw [Code.payloadStart, if_pos (by omega)]
    congr 1
    omega
  refine bind_eq_ok.mpr ⟨_, hplace, bind_eq_ok.mpr ⟨_, by rw [h.ident]; rfl, ?_⟩⟩
  rw [if_neg (by simp)]
  refine bind_eq_ok.mpr ⟨_, by rw [h.width_eq]; rfl, ?_⟩
  rw [if_neg (not_not_intro h.isWidth)]
  refine bind_eq_ok.mpr ⟨_, by rw [h.count_eq]; rfl, ?_⟩
  rw [h.dataElements]
  rfl

theorem payloadSize (h : ArrayAt code start pad width values) :
    code.payloadSize start = .ok (arrayPayload pad width values).length := by
  have hinside := h.inside
  have hlength := length_arrayPayload pad width values
  rw [Code.payloadSize, h.ident, ok_bind, h.width_eq, ok_bind, if_neg (by decide), if_neg (by decide), if_pos rfl,
    h.count_eq, ok_bind, hlength]
  exact bind_eq_ok.mpr ⟨_, rfl, if_neg (by omega)⟩

theorem decodeAt_payload (h : ArrayAt code start pad width values) (pool : Pool) :
    decodeAt code pool start = .ok ⟨.payload, (arrayPayload pad width values).length - 1⟩ :=
  decodeAt_table pool (by decide) h.ident h.payloadSize

/-- Behind the data, decoding and the listing go on. -/
theorem resumes (h : ArrayAt code start pad width values) (pool : Pool) (done : List Insn) :
    decodeFrom code pool done start = decodeFrom code pool done (start + (arrayPayload pad width values).length) ∧
      listFrom code pool start =
        (start, ".payload") :: listFrom code pool (start + (arrayPayload pad width values).length) := by
  have hinside := h.inside
  have hlength := length_arrayPayload pad width values
  have hlt : start < code.size := by omega
  have hnext : start + 1 + ((arrayPayload pad width values).length - 1) =
      start + (arrayPayload pad width values).length := by omega
  constructor
  · rw [decodeFrom_step hlt (h.decodeAt_payload pool) rfl, hnext]
  · rw [listFrom, dif_pos hlt, h.decodeAt_payload pool, ← hnext]
    rfl

/-- The instruction has the elements that were written. -/
theorem decodeAt_fillArrayData (h : ArrayAt code start pad width values) (pool : Pool) {aa w : Nat}
    (hinsn : code.unit pc pc = .ok (Opcode.fillArrayData.byte + 256 * aa)) (hword : code.word pc (pc + 1) = .ok w)
    (hstart : pc + signed 32 w = start) :
    decodeAt code pool pc = .ok ⟨.insn (.of (.fillArray width values) [.ofReg aa] none pc), 2⟩ := by
  rw [decodeAt_opcode pool (by decide) (hasAt_unit hinsn)]
  exact bind_eq_ok.mpr ⟨_, hword, bind_eq_ok.mpr ⟨_, h.readArray hstart, rfl⟩⟩

end ArrayAt

theorem arrayAt_append {before after : List UInt16}
    (hcode : code.toList = before ++ arrayPayload pad width values ++ after) (hwidth : width ∈ [1, 2, 4, 8])
    (hfits : ∀ x ∈ values, FitsIn (8 * width) x) (hcount : values.length < 2 ^ 32) :
    ArrayAt code before.length pad width values := by
  have hunits : HasAt code before.length ((arrayPayload pad width values).map UInt16.toNat) := by
    intro pc i u hu
    rw [List.getElem?_map, Option.map_eq_some_iff] at hu
    obtain ⟨v, hv, rfl⟩ := hu
    have hlt := (List.getElem?_eq_some_iff.mp hv).1
    have hunit : code[before.length + i]? = some v := by
      rw [← Array.getElem?_toList, hcode, List.append_assoc, List.getElem?_append_right (Nat.le_add_right _ _),
        Nat.add_sub_cancel_left, List.getElem?_append_left hlt, hv]
    rw [Code.unit, hunit]
  refine ⟨hunits, ?_, hwidth, hfits, hcount⟩
  rw [← Array.length_toList, hcode, List.length_append, List.length_append]
  exact Nat.le_add_right _ _

/-- Array data in the middle of a method. An instruction that leads to it gets its elements, and its size is the number
of units that were written, so that decoding and the listing go on behind them. -/
theorem arrayPayload_roundtrip (pool : Pool) (pad : UInt8) {width : Nat} {values : List Int}
    (before after : List UInt16) (hwidth : width ∈ [1, 2, 4, 8]) (hfits : ∀ x ∈ values, FitsIn (8 * width) x)
    (hcount : values.length < 2 ^ 32) {code : Code}
    (hcode : code.toList = before ++ arrayPayload pad width values ++ after) :
    (∀ (pc : Nat) (distance : Int), pc + distance = before.length →
      code.readArray pc distance = .ok (width, values)) ∧
    (∀ pc aa w, code.unit pc pc = .ok (Opcode.fillArrayData.byte + 256 * aa) → code.word pc (pc + 1) = .ok w →
      pc + signed 32 w = before.length →
      decodeAt code pool pc = .ok ⟨.insn (.of (.fillArray width values) [.ofReg aa] none pc), 2⟩) ∧
    code.payloadSize before.length = .ok (arrayPayload pad width values).length ∧
    (∀ done, decodeFrom code pool done before.length =
      decodeFrom code pool done (before ++ arrayPayload pad width values).length) ∧
    listFrom code pool before.length =
      (before.length, ".payload") :: listFrom code pool (before ++ arrayPayload pad width values).length := by
  have htable := arrayAt_append hcode hwidth hfits hcount
  rw [List.length_append]
  exact ⟨fun pc distance => htable.readArray, fun pc aa w => htable.decodeAt_fillArrayData pool, htable.payloadSize,
    fun done => (htable.resumes pool done).1, (htable.resumes pool []).2⟩

/-- Three elements of a byte each, filled up to two units, between the instruction that leads to them and a return. -/
theorem arrayPayload_roundtrip_bytes :
    let code : Code := #[0x0026, 3, 0, 0x0300, 1, 3, 0, 0x80ff, 0xaa7f, 0x000e]
    code.readArray 0 3 = .ok (1, [-1, -128, 127]) ∧ code.payloadSize 3 = .ok 6 ∧
      decodeAt code (.numbered []) 0 =
        .ok ⟨.insn (.of (.fillArray 1 [-1, -128, 127]) [.ofReg 0] none 0), 2⟩ := by
  intro code
  have hfits : ∀ x ∈ [-1, -128, 127], FitsIn (8 * 1) x := by
    simp only [FitsIn]
    decide
  have hcode : code.toList = [0x0026, 3, 0] ++ arrayPayload 0xaa 1 [-1, -128, 127] ++ [0x000e] := by decide
  obtain ⟨hread, hinsn, hsize, -, -⟩ :=
    arrayPayload_roundtrip (.numbered []) 0xaa [0x0026, 3, 0] [0x000e] (by decide) hfits (by decide) hcode
  exact ⟨hread 0 3 rfl, hsize, hinsn 0 0 3 rfl rfl rfl⟩

end JavaLift.Dalvik
