import JavaLift.ClassFile.Decoder
import JavaLift.Proofs.Except

namespace JavaLift.ClassFile

def StackM.Yields {α : Type} (m : StackM α) (P : α → Prop) : Prop :=
  ∀ shape, JavaLift.Yields (m.run shape) fun r => P r.1

namespace StackM.Yields

variable {α β : Type} {P : α → Prop} {Q : β → Prop}

theorem pure {a : α} (h : P a) : StackM.Yields (Pure.pure a) P := fun _ => .ok h

theorem bind {m : StackM α} {f : α → StackM β} (h : ∀ a, StackM.Yields (f a) Q) : StackM.Yields (m >>= f) Q :=
  fun _ => .bind fun r => h r.1 r.2

theorem bind_of {m : StackM α} {f : α → StackM β} (hm : StackM.Yields m P) (h : ∀ a, P a → StackM.Yields (f a) Q) :
    StackM.Yields (m >>= f) Q := by
  intro shape b hb
  obtain ⟨r, hr, hf⟩ := bind_eq_ok.mp hb
  exact h r.1 (hm shape r hr) r.2 b hf

theorem ite {c : Prop} [Decidable c] {m m' : StackM α} (h : StackM.Yields m P) (h' : StackM.Yields m' P) :
    StackM.Yields (if c then m else m') P := by
  split
  · exact h
  · exact h'

end StackM.Yields

/-- The action takes values from the stack at most, and becomes no instruction. -/
def Action.isSilent : Action → Bool
  | .nop | .pop | .popTwo => true
  | _ => false

theorem Category.slots_pos (c : Category) : 0 < c.slots := by cases c <;> simp [slots]

theorem movesFor_offset {pc temp : Nat} {placements : List Placement} :
    ∀ i ∈ movesFor pc temp placements, i.offset = pc := by
  intro i hi
  rcases List.mem_append.mp hi with hi | hi
  · obtain ⟨_, -, rfl⟩ := List.mem_map.mp hi
    rfl
  · obtain ⟨_, -, rfl⟩ := List.mem_map.mp hi
    rfl

theorem stays_of_movesFor_eq_nil {pc temp : Nat} {placements : List Placement} (h : movesFor pc temp placements = []) :
    ∀ w ∈ placements, w.target = w.value.reg := by
  unfold movesFor at h
  simp only [ne_eq, decide_not, List.append_eq_nil_iff, List.map_eq_nil_iff, List.filter_eq_nil_iff, Bool.not_eq_true',
    decide_eq_false_iff_not, not_not] at h
  exact h.2

def exchanges : List (Nat × List Nat) :=
  [(1, [0, 0]), (2, [1, 0, 1]), (3, [2, 0, 1, 2]), (2, [0, 1, 0, 1]), (3, [1, 2, 0, 1, 2]), (4, [2, 3, 0, 1, 2, 3]),
    (2, [1, 0])]

theorem mem_exchanges {take : Nat} {pattern : List Nat} : (take, pattern) ∈ exchanges ↔
    take = 1 ∧ pattern = [0, 0] ∨ take = 2 ∧ pattern = [1, 0, 1] ∨ take = 3 ∧ pattern = [2, 0, 1, 2] ∨
      take = 2 ∧ pattern = [0, 1, 0, 1] ∨ take = 3 ∧ pattern = [1, 2, 0, 1, 2] ∨
      take = 4 ∧ pattern = [2, 3, 0, 1, 2, 3] ∨ take = 2 ∧ pattern = [1, 0] := by
  simp only [exchanges, List.mem_cons, List.not_mem_nil, or_false, Prod.mk.injEq]

theorem shuffleOf_mem (pc : Nat) (kind : Shuffle) : StackM.Yields (shuffleOf pc kind) (· ∈ exchanges) := by
  cases kind with
  | dup | dupX1 | swap => exact .pure (by decide)
  | dupX2 | dup2 | dup2X1 => exact .bind fun _ => .ite (.pure (by decide)) (.pure (by decide))
  | dup2X2 =>
      refine .bind fun _ => .bind fun _ => ?_
      split
      · exact .pure (by decide)
      · exact .pure (by decide)
      · exact .bind fun _ => .ite (.pure (by decide)) (.pure (by decide))

theorem permute_eq_ok {f : Frame} {pc take : Nat} {pattern : List Nat} {shape shape' : Shape} {insns : List Insn}
    (h : (permute f pc take pattern).run shape = .ok (insns, shape')) :
    take ≤ shape.length ∧ ∃ values, values = pattern.filterMap (fun k =>
        (heldFrom (f.locals + slotCount (shape.drop take)) (shape.take take).reverse)[k]?) ∧
      insns = movesFor pc (f.locals + f.maxStack) (placementsFrom (f.locals + slotCount (shape.drop take)) values) ∧
      slotCount (shape.drop take) + slotCount (values.map (·.category)) ≤ f.maxStack ∧
      shape' = (values.map (·.category)).reverse ++ shape.drop take := by
  unfold permute at h
  rw [StateT.run_bind] at h
  obtain ⟨⟨_, _⟩, hget, h⟩ := bind_eq_ok.mp h
  cases hget
  by_cases htake : shape.length < take
  · simp only [htake, if_true] at h
    cases h
  · simp only [htake, if_false] at h
    refine ⟨Nat.not_lt.mp htake, _, rfl, ?_⟩
    split at h
    · cases h
    · rename_i hroom
      cases h
      exact ⟨rfl, Nat.not_lt.mp hroom, rfl⟩

theorem permute_moves (f : Frame) (pc : Nat) {take : Nat} {pattern : List Nat} (hr : (take, pattern) ∈ exchanges) :
    StackM.Yields (permute f pc take pattern) fun insns => (∀ i ∈ insns, i.offset = pc) ∧ insns ≠ [] := by
  intro shape (insns, shape') h
  obtain ⟨hlen, _, rfl, rfl, -⟩ := permute_eq_ok h
  refine ⟨movesFor_offset, fun hnil => ?_⟩
  have hstays := stays_of_movesFor_eq_nil hnil
  clear h hnil
  rcases mem_exchanges.mp hr with ⟨rfl, rfl⟩ | ⟨rfl, rfl⟩ | ⟨rfl, rfl⟩ | ⟨rfl, rfl⟩ | ⟨rfl, rfl⟩ | ⟨rfl, rfl⟩ | ⟨rfl, rfl⟩
  · match shape, hlen with
    | a :: rest, _ =>
        have hpos := a.slots_pos
        simp [heldFrom, placementsFrom] at hstays
        omega
  · match shape, hlen with
    | b :: a :: rest, _ =>
        have hpos := a.slots_pos
        simp [heldFrom, placementsFrom] at hstays
        omega
  · match shape, hlen with
    | c :: b :: a :: rest, _ =>
        have hpos := a.slots_pos
        simp [heldFrom, placementsFrom] at hstays
        omega
  · match shape, hlen with
    | b :: a :: rest, _ =>
        have hpos := a.slots_pos
        simp [heldFrom, placementsFrom] at hstays
        omega
  · match shape, hlen with
    | c :: b :: a :: rest, _ =>
        have hpos := a.slots_pos
        simp [heldFrom, placementsFrom] at hstays
        omega
  · match shape, hlen with
    | d :: c :: b :: a :: rest, _ =>
        have hpos := a.slots_pos
        simp [heldFrom, placementsFrom] at hstays
        omega
  · match shape, hlen with
    | b :: a :: rest, _ =>
        have hpos := a.slots_pos
        simp [heldFrom, placementsFrom] at hstays
        omega

/-- The instructions of an action stand at its offset. Only a silent action has none. -/
def Effect.StandsAt (pc : Nat) (action : Action) (e : Effect) : Prop :=
  (∀ i ∈ e.insns, i.offset = pc) ∧ (e.insns = [] ↔ action.isSilent = true)

theorem perform_standsAt (c : Context) (pc : Nat) (action : Action) :
    StackM.Yields (perform c pc action) (Effect.StandsAt pc action) := by
  have hone {i : Insn} {falls : Bool} {targets : List Nat} (hi : i.offset = pc) (hloud : action.isSilent = false) :
      Effect.StandsAt pc action ⟨[i], falls, targets⟩ := ⟨by simpa using hi, by simp [hloud]⟩
  cases action
  all_goals simp only [perform]
  case nop => exact .pure ⟨nofun, by simp [Effect.next, Action.isSilent]⟩
  case pop => exact .bind fun _ => .pure ⟨nofun, by simp [Effect.next, Action.isSilent]⟩
  case popTwo => exact .bind fun _ => .pure ⟨nofun, by simp [Effect.next, Action.isSilent]⟩
  case shuffle kind =>
    refine .bind_of (shuffleOf_mem pc kind) fun (take, pattern) hr =>
      .bind_of (permute_moves c.frame pc hr) fun insns h => ?_
    exact .pure ⟨h.1, by simp [Effect.next, h.2, Action.isSilent]⟩
  case loadConstant index =>
    refine .bind fun constant => ?_
    cases constant <;> exact .bind fun _ => .pure (hone rfl rfl)
  case store type index =>
    exact .ite (.bind fun _ => .bind fun _ => .pure (hone rfl rfl)) (.bind fun _ => .pure (hone rfl rfl))
  case call kind index =>
    refine .bind fun m => .bind fun params => ?_
    refine .ite (.bind fun _ => ?_) (.bind fun _ => .bind fun _ => ?_)
    all_goals exact .ite (.bind fun _ => .pure (hone rfl rfl)) (.bind fun _ => .bind fun _ => .pure (hone rfl rfl))
  case newPrimitives code =>
    split
    · exact .bind fun _ => .bind fun _ => .bind fun _ => .pure (hone rfl rfl)
    · exact .bind fun _ => .bind fun _ => .bind fun _ => .pure (hone rfl rfl)
  -- The others take their operands from the stack and the pool one after the other, and give one instruction.
  all_goals
    repeat with_reducible refine .bind fun _ => ?_
    exact .pure (hone rfl rfl)

/-- The opcode gets an instruction where it is reached: its own, or the one that takes the exception of a handler. -/
def RawOp.isWritten (handlers : Handlers) (op : RawOp) : Bool :=
  (handlers.lookup op.offset).isSome || op.action?.any fun action => !action.isSilent

def writtenOffsets (handlers : Handlers) (ops : List RawOp) (shapes : Array (Option Shape)) : List Nat :=
  ((ops.zip shapes.toList).filter fun (op, shape) => shape.isSome && op.isWritten handlers).map (·.1.offset)

variable {c : Context} {code : Code} {handlers : Handlers} {insns : List Insn}

theorem writeOut_offsets {op : RawOp} {shape : Shape} (h : writeOut c handlers op shape = .ok insns) :
    (∀ i ∈ insns, i.offset = op.offset) ∧ (insns ≠ [] ↔ op.isWritten handlers = true) := by
  obtain ⟨⟨effect, shape'⟩, hstep, h⟩ := bind_eq_ok.mp h
  unfold step at hstep
  split at hstep
  · rename_i action haction
    obtain ⟨hoffset, hnil⟩ := perform_standsAt c op.offset action shape _ hstep
    simp only at hoffset hnil h
    cases hlookup : handlers.lookup op.offset with
    | some caught =>
        rw [hlookup] at h
        cases h
        exact ⟨List.forall_mem_cons.mpr ⟨rfl, hoffset⟩, by simp [RawOp.isWritten, hlookup]⟩
    | none =>
        rw [hlookup] at h
        cases h
        exact ⟨hoffset, by simp [RawOp.isWritten, hlookup, haction, hnil]⟩
  · cases hstep

theorem decodeAll_offsets (h : decodeAll c code handlers = .ok insns) :
    ∃ ops, code.readFrom 0 = .ok ops ∧ ∀ pc, pc ∈ insns.map (·.offset) ↔
      ∃ shapes, shapesOf c ops.toArray handlers = .ok shapes ∧ pc ∈ writtenOffsets handlers ops shapes := by
  obtain ⟨_, -, h⟩ := bind_eq_ok.mp h
  obtain ⟨ops, hops, h⟩ := bind_eq_ok.mp h
  refine ⟨ops, hops, fun pc => ?_⟩
  by_cases hempty : ops.isEmpty = true
  · obtain rfl : ops = [] := by simpa using hempty
    cases h
    simp [writtenOffsets]
  · rw [if_neg hempty] at h
    obtain ⟨shapes, hshapes, h⟩ := bind_eq_ok.mp h
    obtain ⟨parts, hparts, h⟩ := bind_eq_ok.mp h
    cases h
    simp only [hshapes, Except.ok.injEq, exists_eq_left']
    simp only [writtenOffsets, List.mem_map, List.mem_flatten, List.mem_filter]
    constructor
    · rintro ⟨i, ⟨part, hpart, hi⟩, rfl⟩
      obtain ⟨⟨op, shape⟩, hmem, hwrite⟩ := exists_of_mem_mapM hparts hpart
      cases shape with
      | none =>
          cases hwrite
          cases hi
      | some shape =>
          obtain ⟨hoffset, hne⟩ := writeOut_offsets hwrite
          exact ⟨(op, some shape), ⟨hmem, by simpa using hne.mp (List.ne_nil_of_mem hi)⟩, (hoffset i hi).symm⟩
    · rintro ⟨⟨op, shape⟩, ⟨hmem, hwritten⟩, rfl⟩
      obtain ⟨part, hpart, hwrite⟩ := exists_of_mem_of_mapM hparts hmem
      cases shape with
      | none => simp at hwritten
      | some shape =>
          obtain ⟨hoffset, hne⟩ := writeOut_offsets hwrite
          obtain ⟨i, hi⟩ := List.exists_mem_of_ne_nil _ (hne.mpr (by simpa using hwritten))
          exact ⟨i, ⟨part, hpart, hi⟩, hoffset i hi⟩

theorem readWide_offset (code : Code) (pc : Nat) : Yields (code.readWide pc) fun op => op.offset = pc :=
  .bind fun _ => .bind fun _ => .ite (.ok rfl) (.ite (.bind fun _ => .ok rfl) (.error _))

theorem readOp_offset (code : Code) (pc : Nat) : Yields (code.readOp pc) fun op => op.offset = pc := by
  refine .bind fun opcode => ?_
  simp only
  repeat' first
    | with_reducible refine .ite ?_ ?_
    | with_reducible refine .bind fun _ => ?_
    | exact .ok rfl
    | exact readWide_offset code pc
    | exact .error _

theorem lt_of_mem_readFrom {ops : List RawOp} {pc : Nat} (h : code.readFrom pc = .ok ops) :
    ∀ op ∈ ops, op.offset < code.size := by
  fun_induction Code.readFrom code pc generalizing ops with
  | case1 pc hlt e he => cases h
  | case2 pc hlt op hop e he ih => cases h
  | case3 pc hlt op hop rest hrest ih =>
      cases h
      refine List.forall_mem_cons.mpr ⟨?_, ih hrest⟩
      rw [readOp_offset code pc op hop]
      exact hlt
  | case4 pc hend =>
      cases h
      nofun

end JavaLift.ClassFile
