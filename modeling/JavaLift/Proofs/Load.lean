import JavaLift.Load
import JavaLift.Proofs.ClassFile.Offsets
import JavaLift.Proofs.Dalvik.Items
import JavaLift.Proofs.Flow.Bounds

namespace JavaLift

namespace RawCode

variable {code : RawCode} {s : Signature} {pool : Pool} {body : MethodBody}

def starts (code : RawCode) (pool : Pool) : List Nat :=
  match code.format with
  | .dalvik => match Dalvik.Code.ofBytes code.bytes with
    | .ok units => (Dalvik.itemsFrom units pool 0).map (·.1)
    | .error _ => []
  | .classFile => match ClassFile.Code.readFrom code.bytes 0 with
    | .ok ops => ops.map (·.offset)
    | .error _ => []

def context (code : RawCode) (s : Signature) (pool : Pool) : ClassFile.Context :=
  ⟨⟨code.registers, code.maxStack⟩, pool, s.className⟩

/-- The offsets at which the body has instructions. In Dalvik code results of calls and tables are left out, in a class
file what cannot be reached and, apart from the entries of handlers, what only takes values from the stack. -/
def written (code : RawCode) (s : Signature) (pool : Pool) : List Nat :=
  match code.format with
  | .dalvik => match Dalvik.Code.ofBytes code.bytes with
    | .ok units => Dalvik.insnPositions (Dalvik.itemsFrom units pool 0)
    | .error _ => []
  | .classFile => match ClassFile.Code.readFrom code.bytes 0 with
    | .ok ops => match ClassFile.shapesOf (code.context s pool) ops.toArray code.handlerEntries with
      | .ok shapes => ClassFile.writtenOffsets code.handlerEntries ops shapes
      | .error _ => []
    | .error _ => []

theorem offset_markHandler (h : Handler) (insns : List Insn) :
    (markHandler h insns).map (·.offset) = insns.map (·.offset) := by
  induction insns with
  | nil => rfl
  | cons i rest ih =>
      unfold markHandler
      split
      · rw [List.map_cons, List.map_cons]
        congr 1
        split <;> rfl
      · rw [List.map_cons, List.map_cons, ih]

theorem offset_markHandlers (handlers : List Handler) (insns : List Insn) :
    (handlers.foldl (fun insns h => markHandler h insns) insns).map (·.offset) = insns.map (·.offset) := by
  induction handlers generalizing insns with
  | nil => rfl
  | cons h handlers ih => rw [List.foldl_cons, ih, offset_markHandler]

theorem offset_attachLines (lines : List LineEntry) (insns : List Insn) :
    (attachLines lines insns).map (·.offset) = insns.map (·.offset) := by
  simp [attachLines, Function.comp_def]

theorem loadDalvik_offsets (hformat : code.format = .dalvik) (h : code.loadDalvik s pool = .ok body) :
    body.insns.map (·.offset) = code.written s pool ∧ ∀ t ∈ code.starts pool, t < body.length := by
  obtain ⟨units, hunits, h⟩ := bind_eq_ok.mp h
  obtain ⟨insns, hinsns, h⟩ := bind_eq_ok.mp h
  simp only [written, starts, hformat, hunits]
  by_cases hregisters : code.registers < s.inputRegisters
  · rw [if_pos hregisters] at h
    cases h
  · rw [if_neg hregisters] at h
    cases h
    exact ⟨by rw [offset_markHandlers, Dalvik.decodeAll_offsets hinsns], Dalvik.lt_of_mem_itemsFrom⟩

theorem loadClassFile_offsets (hformat : code.format = .classFile) (h : code.loadClassFile s pool = .ok body) :
    (∀ t, t ∈ body.insns.map (·.offset) ↔ t ∈ code.written s pool) ∧ ∀ t ∈ code.starts pool, t < body.length := by
  unfold loadClassFile at h
  by_cases hregisters : code.registers < s.inputRegisters
  · rw [if_pos hregisters] at h
    cases h
  · rw [if_neg hregisters] at h
    obtain ⟨registers, -, h⟩ := bind_eq_ok.mp h
    obtain ⟨insns, hinsns, h⟩ := bind_eq_ok.mp h
    cases h
    obtain ⟨ops, hops, hoffsets⟩ := ClassFile.decodeAll_offsets hinsns
    simp only [written, starts, hformat, hops]
    refine ⟨fun t => (hoffsets t).trans ?_, fun t ht => ?_⟩
    · change (∃ shapes, ClassFile.shapesOf (code.context s pool) ops.toArray code.handlerEntries = .ok shapes ∧ _) ↔ _
      cases ClassFile.shapesOf (code.context s pool) ops.toArray code.handlerEntries <;> simp
    · obtain ⟨op, hop, rfl⟩ := List.mem_map.mp ht
      exact ClassFile.lt_of_mem_readFrom hops op hop

/-- The body has instructions where the code has some that are not left out, and all of the code lies within its length. -/
theorem load_offsets (h : code.load s pool = .ok body) :
    (∀ t, t ∈ body.insns.map (·.offset) ↔ t ∈ code.written s pool) ∧ ∀ t ∈ code.starts pool, t < body.length := by
  unfold load at h
  cases hformat : code.format <;> rw [hformat] at h
  all_goals
    obtain ⟨loaded, hloaded, h⟩ := bind_eq_ok.mp h
    obtain ⟨_, -, h⟩ := bind_eq_ok.mp h
    cases h
    simp only [offset_attachLines]
  · obtain ⟨hoffsets, hstarts⟩ := loadDalvik_offsets hformat hloaded
    exact ⟨fun t => by rw [hoffsets], hstarts⟩
  · exact loadClassFile_offsets hformat hloaded

end RawCode

namespace MethodBody

def bounds (body : MethodBody) : List Nat := Graph.bounds body.insns body.tries body.length

def graph (body : MethodBody) : Except Inconsistency Graph := Graph.build body.insns body.tries body.length

end MethodBody

/-- Where all bounds of a loaded method are at instructions of the code, its graph is refused for a bound exactly if one
of them is at an instruction that has been left out. -/
theorem RawCode.graph_boundary_iff {code : RawCode} {s : Signature} {pool : Pool} {body : MethodBody}
    (h : code.load s pool = .ok body) (hlegal : ∀ t ∈ body.bounds, t ∈ code.starts pool) :
    (∃ e, body.graph = .error e ∧ e.isBoundary = true) ↔
      body.insns ≠ [] ∧ ∃ t ∈ body.bounds, t ∉ code.written s pool := by
  obtain ⟨hoffsets, hstarts⟩ := RawCode.load_offsets h
  refine Graph.build_boundary_iff.trans (and_congr_right fun _ => exists_congr fun t => and_congr_right fun ht => ?_)
  rw [hoffsets, not_and]
  exact ⟨fun hout => hout (hstarts t (hlegal t ht)), fun hout _ => hout⟩

/-- Does nothing, and returns zero. The guarded range starts with the instruction that does nothing. -/
def nothingGuarded : RawCode :=
  ⟨.classFile, 0, 1, #[0x00, 0x03, 0xac, 0x57, 0x03, 0xac], [⟨0, 3, [⟨none, 3⟩]⟩], []⟩

theorem RawCode.graph_boundary_nothingGuarded :
    ∃ body, nothingGuarded.load ⟨"a.B", "m", [], .int, ⟨8⟩⟩ (.numbered []) = .ok body ∧
      (∀ t ∈ body.bounds, t ∈ nothingGuarded.starts (.numbered [])) ∧
        ∃ e, body.graph = .error e ∧ e.isBoundary = true := by
  have hload : ((nothingGuarded.load ⟨"a.B", "m", [], .int, ⟨8⟩⟩ (.numbered [])).toOption.any fun body =>
      body.bounds.all (nothingGuarded.starts (.numbered [])).contains &&
        body.bounds.contains 0 && !body.insns.isEmpty) = true := by
    decide +kernel
  obtain ⟨body, hload, hbounds⟩ := exists_ok_of_any hload
  simp only [Bool.and_eq_true, List.all_eq_true, List.contains_iff_mem, Bool.not_eq_true',
    List.isEmpty_eq_false_iff] at hbounds
  obtain ⟨⟨hlegal, hstart⟩, hne⟩ := hbounds
  exact ⟨body, hload, hlegal, (RawCode.graph_boundary_iff hload hlegal).mpr ⟨hne, 0, hstart, by decide +kernel⟩⟩

/-- Calls `g`, takes the result and returns it. The guarded range ends with the call. -/
def callGuarded : RawCode :=
  ⟨.dalvik, 1, 0, #[0x71, 0, 0, 0, 0, 0, 0x0a, 0, 0x0f, 0, 0x0d, 0, 0x12, 0, 0x0f, 0], [⟨0, 3, [⟨none, 5⟩]⟩], []⟩

def callPool : Pool := .tables ⟨#[], #[], #[], #[⟨"a.B", "g", [], .int⟩]⟩

/-- The end of the range is where the result is taken. -/
theorem RawCode.not_graph_callGuarded :
    ∃ body, callGuarded.load ⟨"a.B", "m", [], .int, ⟨8⟩⟩ callPool = .ok body ∧
      (∀ t ∈ body.bounds, t ∈ callGuarded.starts callPool) ∧ ∃ e, body.graph = .error e ∧ e.isBoundary = true := by
  have hload : ((callGuarded.load ⟨"a.B", "m", [], .int, ⟨8⟩⟩ callPool).toOption.any fun body =>
      body.bounds.all (callGuarded.starts callPool).contains && match body.graph with
        | .error e => e.isBoundary
        | .ok _ => false) = true := by
    decide +kernel
  obtain ⟨body, hload, hbody⟩ := exists_ok_of_any hload
  simp only [Bool.and_eq_true, List.all_eq_true, List.contains_iff_mem] at hbody
  obtain ⟨hlegal, hgraph⟩ := hbody
  refine ⟨body, hload, hlegal, ?_⟩
  cases he : body.graph with
  | error e => exact ⟨e, rfl, by simpa [he] using hgraph⟩
  | ok g => simp [he] at hgraph

end JavaLift
