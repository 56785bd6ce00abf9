import JavaLift.Proofs.ClassFile.Shuffles
import JavaLift.Proofs.Insn.Tree

namespace JavaLift.ClassFile

def Flat (i : Insn) : Prop := ∀ a ∈ i.args, a.insn? = none

/-- The registers exist, and they are locals, or none of them is. -/
def Lie (f : Frame) (n : Nat) (isLocal : Bool) (cells : List Nat) : Prop :=
  ∀ r ∈ cells, r < n ∧ (r < f.locals ↔ isLocal = true)

/-- The registers that an instruction reads and writes, both of a wide value, are of the given kinds. -/
structure Keeps (f : Frame) (n : Nat) (reads writes : Bool) (i : Insn) : Prop where
  reads : Lie f n reads i.readCells
  writes : Lie f n writes i.writeCells

/-- The instructions of an opcode name locals where its action reads or writes one, and registers above the locals in
all other places. -/
def Apart (c : Context) (handlers : Handlers) (n : Nat) : RawOp × Option Shape → List Insn → Prop
  | (_, none), part => part = []
  | (op, some s), part => ∃ action e t, op.action? = some action ∧ (perform c op.offset action).run s = .ok (e, t) ∧
      part = ((handlers.lookup op.offset).map (handlerEntry c op.offset)).toList ++ e.insns ∧
      (∀ caught ∈ handlers.lookup op.offset, Keeps c.frame n false false (handlerEntry c op.offset caught)) ∧
      ∀ i ∈ e.insns, Keeps c.frame n action.localRead?.isSome action.localWritten?.isSome i

/-- The local of an action is one of the frame, both halves of a wide one, and what a shuffle takes fits the
temporaries. -/
def Action.InFrame (f : Frame) (s : Shape) : Action → Prop
  | .load type index | .store type index => index + (Category.ofType type).slots ≤ f.locals
  | .increment index _ => index < f.locals
  | .shuffle kind => slotCount (s.take (kind.depth s)) ≤ tempSlots
  | _ => True

instance (f : Frame) (s : Shape) (action : Action) : Decidable (action.InFrame f s) := by
  unfold Action.InFrame
  split <;> infer_instance

theorem leaves_eq_of_flat {a : Arg} (h : a.insn? = none) : a.leaves = a.reg?.toList := by
  cases a with
  | reg r => rfl
  | lit value type => rfl
  | tree head args => cases h

theorem heads_eq_of_flat {a : Arg} (h : a.insn? = none) : a.heads = [] := by
  cases a with
  | reg r => rfl
  | lit value type => rfl
  | tree head args => cases h

theorem mem_readCells {i : Insn} (h : Flat i) {r : Nat} :
    r ∈ i.readCells ↔ ∃ x, .reg x ∈ i.args ∧ r ∈ x.cells := by
  have hleaves : i.reads.map Prod.snd = i.args.flatMap Arg.leaves := Arg.leaves_tree i.toHead i.args
  have hcells : i.readCells = (i.reads.map Prod.snd).flatMap Register.cells := by
    rw [List.flatMap_map]
    rfl
  rw [hcells, hleaves, List.mem_flatMap]
  constructor
  · rintro ⟨x, hx, hr⟩
    obtain ⟨a, ha, hx⟩ := List.mem_flatMap.mp hx
    rw [leaves_eq_of_flat (h a ha)] at hx
    cases a with
    | reg y =>
        obtain rfl := List.mem_singleton.mp hx
        exact ⟨x, ha, hr⟩
    | lit value type => cases hx
    | tree head args => cases hx
  · rintro ⟨x, hx, hr⟩
    exact ⟨x, List.mem_flatMap.mpr ⟨_, hx, List.mem_singleton_self x⟩, hr⟩

theorem writeCells_eq {i : Insn} (h : Flat i) : i.writeCells = i.result.elim [] Register.cells := by
  have hheads : i.heads = [i.toHead] := by
    have hnone : i.args.flatMap Arg.heads = [] := List.flatMap_eq_nil_iff.mpr fun a ha => heads_eq_of_flat (h a ha)
    rw [Insn.heads, Insn.toArg, Arg.heads, Arg.headsOf_eq, hnone]
  rw [Insn.writeCells, hheads, List.flatMap_singleton]

theorem mem_cells {x : Register} {r : Nat} : r ∈ x.cells ↔ r = x.reg ∨ x.wide = true ∧ r = x.reg + 1 := by
  unfold Register.cells
  cases x.wide <;> simp

theorem movesFor_flat (pc temp : Nat) (placements : List Placement) : ∀ i ∈ movesFor pc temp placements, Flat i := by
  rw [movesFor_eq]
  exact List.forall_mem_map.mpr fun w _ => List.forall_mem_singleton.mpr rfl

theorem permute_flat (f : Frame) (pc take : Nat) (pattern : List Nat) :
    StackM.Yields (permute f pc take pattern) fun insns => ∀ i ∈ insns, Flat i := by
  intro shape (insns, shape') h
  obtain ⟨-, _, -, rfl, -⟩ := permute_eq_ok h
  exact movesFor_flat _ _ _

theorem popArguments_flat (f : Frame) (pc : Nat) (types : List Ty) :
    StackM.Yields (popArguments f pc types) fun args => ∀ a ∈ args, a.insn? = none := by
  have heach (types : List Ty) : StackM.Yields
      (types.mapM fun type => do return Arg.ofTyped (← StackM.pop f pc (.ofType type)) type)
      fun args => ∀ a ∈ args, a.insn? = none := by
    induction types with
    | nil => exact .pure nofun
    | cons type types ih =>
        rw [List.mapM_cons]
        refine .bind_of (P := fun a => a.insn? = none) (.bind fun _ => .pure rfl) fun a ha => ?_
        exact .bind_of ih fun args hargs => .pure (List.forall_mem_cons.mpr ⟨ha, hargs⟩)
  exact .bind_of (heach types.reverse) fun args hargs => .pure fun a ha => hargs a (List.mem_reverse.mp ha)

def Effect.AllFlat (e : Effect) : Prop := ∀ i ∈ e.insns, Flat i

theorem perform_flat (c : Context) (pc : Nat) (action : Action) :
    StackM.Yields (perform c pc action) Effect.AllFlat := by
  have hone {op : Op} {args : List Arg} {result : Option Register} {falls : Bool} {targets : List Nat}
      (hargs : ∀ a ∈ args, a.insn? = none) : Effect.AllFlat ⟨[.of op args result pc], falls, targets⟩ :=
    List.forall_mem_singleton.mpr hargs
  cases action
  all_goals simp only [perform]
  case nop => exact .pure (List.forall_mem_nil _)
  case pop => exact .bind fun _ => .pure (List.forall_mem_nil _)
  case popTwo => exact .bind fun _ => .pure (List.forall_mem_nil _)
  case shuffle kind =>
    exact .bind fun r => .bind_of (permute_flat c.frame pc r.1 r.2) fun _ h => .pure h
  case loadConstant index =>
    refine .bind fun constant => ?_
    cases constant <;> exact .bind fun _ => .pure (hone (by simp [Arg.insn?]))
  case store type index =>
    have hflat (r : Nat) : ∀ a ∈ [Arg.ofTyped r type], a.insn? = none := List.forall_mem_singleton.mpr rfl
    exact .ite (.bind fun _ => .bind fun r => .pure (hone (hflat r))) (.bind fun r => .pure (hone (hflat r)))
  case call kind index =>
    refine .bind fun m => .bind_of (popArguments_flat _ _ _) fun params hparams => ?_
    refine .ite (.bind_of (P := (· = params)) (.pure rfl) ?_) (.bind fun receiver => .bind_of
      (P := (· = .ofTyped receiver (.ofClassName m.className) :: params)) (.pure rfl) ?_)
    · rintro _ rfl
      with_reducible refine .ite ?_ ?_
      all_goals
        repeat with_reducible refine .bind fun _ => ?_
        exact .pure (hone hparams)
    · rintro _ rfl
      have hall : ∀ a ∈ Arg.ofTyped receiver (.ofClassName m.className) :: params, a.insn? = none :=
        List.forall_mem_cons.mpr ⟨rfl, hparams⟩
      with_reducible refine .ite ?_ ?_
      all_goals
        repeat with_reducible refine .bind fun _ => ?_
        exact .pure (hone hall)
  case newPrimitives code =>
    split
    · exact .bind fun _ => .bind fun _ => .bind fun _ => .pure (hone (by simp [Arg.ofTyped, Arg.insn?]))
    · exact .bind fun _ => .bind fun _ => .bind fun _ => .pure (hone (by simp [Arg.ofTyped, Arg.insn?]))
  all_goals
    repeat with_reducible refine .bind fun _ => ?_
    exact .pure (hone (by simp [Arg.ofTyped, Arg.ofReg, Arg.insn?]))

theorem Category.slots_le (c : Category) : c.slots ≤ 2 := by cases c <;> decide

def span (reg : Nat) (c : Category) : List Nat := (List.range c.slots).map (reg + ·)

theorem cells_typed (reg : Nat) (type : Ty) : (Register.typed reg type).cells = span reg (.ofType type) := by
  unfold Register.cells Register.typed span Category.ofType
  cases type.isWide <;> rfl

section

variable {f : Frame} {n reg : Nat} {c : Category}

theorem mem_span {r : Nat} : r ∈ span reg c ↔ reg ≤ r ∧ r < reg + c.slots := by
  unfold span
  constructor
  · intro hr
    obtain ⟨k, hk, rfl⟩ := List.mem_map.mp hr
    have hlt := List.mem_range.mp hk
    omega
  · rintro ⟨hle, hlt⟩
    exact List.mem_map.mpr ⟨r - reg, List.mem_range.mpr (by omega), by omega⟩

theorem lie_of_within {cells : List Nat} (h : ∀ r ∈ cells, f.locals ≤ r ∧ r < n) : Lie f n false cells := fun r hr =>
  ⟨(h r hr).2, iff_of_false (Nat.not_lt.mpr (h r hr).1) Bool.false_ne_true⟩

theorem lie_above : Lie f n false (span reg c) ↔ f.locals ≤ reg ∧ reg + c.slots ≤ n := by
  have hpos := c.slots_pos
  constructor
  · intro h
    have hfirst := h reg (mem_span.mpr ⟨Nat.le_refl _, by omega⟩)
    have hlast := (h (reg + c.slots - 1) (mem_span.mpr ⟨by omega, by omega⟩)).1
    have hout := mt hfirst.2.mp Bool.false_ne_true
    omega
  · rintro ⟨hle, hfits⟩
    refine lie_of_within fun r hr => ?_
    have hr := mem_span.mp hr
    omega

theorem lie_local (hn : f.locals ≤ n) : Lie f n true (span reg c) ↔ reg + c.slots ≤ f.locals := by
  have hpos := c.slots_pos
  constructor
  · intro h
    have hlast := (h (reg + c.slots - 1) (mem_span.mpr ⟨by omega, by omega⟩)).2.mpr rfl
    omega
  · intro hfits r hr
    have hr := mem_span.mp hr
    exact ⟨by omega, iff_of_true (by omega) rfl⟩

theorem keeps_move (pc : Nat) (w : Placement) : Keeps f n false false (w.move pc) ↔
    (f.locals ≤ w.value.reg ∧ w.value.reg + w.value.category.slots ≤ n) ∧
      (f.locals ≤ w.target ∧ w.target + w.value.category.slots ≤ n) := by
  have hreads : (w.move pc).readCells = span w.value.reg w.value.category := by
    obtain ⟨target, category, reg⟩ := w
    cases category <;> rfl
  have hwrites : (w.move pc).writeCells = span w.target w.value.category := by
    obtain ⟨target, category, reg⟩ := w
    cases category <;> rfl
  rw [← lie_above, ← lie_above, ← hreads, ← hwrites]
  exact ⟨fun h => ⟨h.reads, h.writes⟩, fun h => ⟨h.1, h.2⟩⟩

theorem keeps_between {reads writes : Bool} {pc source target : Nat} {type : Ty} :
    Keeps f n reads writes (.of .move [.ofTyped source type] (some (.typed target type)) pc) ↔
      Lie f n reads (span source (.ofType type)) ∧ Lie f n writes (span target (.ofType type)) := by
  have hreads : (Insn.of .move [.ofTyped source type] (some (.typed target type)) pc).readCells =
      (Register.typed source type).cells := List.append_nil _
  have hwrites : (Insn.of .move [.ofTyped source type] (some (.typed target type)) pc).writeCells =
      (Register.typed target type).cells := List.append_nil _
  rw [← cells_typed, ← cells_typed, ← hreads, ← hwrites]
  exact ⟨fun h => ⟨h.reads, h.writes⟩, fun h => ⟨h.1, h.2⟩⟩

/-- An instruction on the stack. What a wide operand takes beyond the stack is a temporary. -/
theorem keeps_of_emits {action : Action} {takes gives rest : Shape} {insns : List Insn}
    (hread : action.localRead? = none) (hwritten : action.localWritten? = none)
    (hemits : action.Emits f takes gives rest insns) (hflat : ∀ i ∈ insns, Flat i)
    (hfits : slotCount (takes ++ rest) ≤ max f.maxStack 1)
    (hroom : gives ≠ [] → slotCount (gives ++ rest) ≤ f.maxStack) :
    ∀ i ∈ insns, Keeps f (f.locals + f.maxStack + tempSlots) false false i := by
  unfold Action.Emits at hemits
  split at hemits
  · rw [hemits]
    exact List.forall_mem_nil _
  · obtain ⟨i, rfl, hargs, hresult⟩ := hemits
    have hflat := List.forall_mem_singleton.mp hflat
    refine List.forall_mem_singleton.mpr ⟨lie_of_within fun r hr => ?_, lie_of_within fun r hr => ?_⟩
    · obtain ⟨x, hx, hr⟩ := (mem_readCells hflat).mp hr
      have hreg : x.reg ∈ argRegs i.args := List.mem_map_of_mem (List.mem_filterMap.mpr ⟨_, hx, rfl⟩)
      rw [hargs, hread] at hreg
      obtain ⟨v, hv, hv'⟩ := List.mem_map.mp hreg
      have hwithin := held_within v hv
      rw [slotCount_reverse] at hwithin
      rw [slotCount_append] at hfits
      have hpos := v.category.slots_pos
      have hcell := mem_cells.mp hr
      unfold tempSlots
      omega
    · rw [writeCells_eq hflat] at hr
      cases hi : i.result with
      | none =>
          rw [hi] at hr
          cases hr
      | some x =>
          rw [hi] at hr hresult
          split at hresult
          · rw [hwritten] at hresult
            cases hresult
          · rename_i hgives
            have hreg : x.reg = f.locals + slotCount rest := Option.some.inj hresult
            have hroom := hroom hgives
            rw [slotCount_append] at hroom
            have hcell := mem_cells.mp hr
            unfold tempSlots
            omega

end

section

variable {c : Context} {pc : Nat} {kind : Shuffle} {action : Action} {s t : Shape} {e : Effect} {insns : List Insn}

theorem keeps_of_performs (hshuffle : ∀ kind, action ≠ .shuffle kind) (hread : action.localRead? = none)
    (hwritten : action.localWritten? = none) (hfits : slotCount s ≤ max c.frame.maxStack 1)
    (hflat : ∀ i ∈ insns, Flat i) (h : Performs c pc action s insns t) :
    ∀ i ∈ insns, Keeps c.frame (c.frame.locals + c.frame.maxStack + tempSlots) false false i := by
  cases h with
  | values takes gives rest form room emits => exact keeps_of_emits hread hwritten emits hflat hfits room
  | copies => exact (hshuffle _ rfl).elim

section

variable {f : Frame} {taken rest : Shape} {pattern : List Nat}

theorem slotCount_saved (f : Frame) (taken rest : Shape) (pattern : List Nat) :
    slotCount ((savedValues (moved (pickedPlacements f taken rest pattern))).map (·.category)) =
      slotCount ((savedOf taken pattern).map (·.category)) := by
  rw [savedValues_picked, List.map_map]
  rfl

/-- One of too many values is saved in the register after the last temporary. -/
theorem exists_saved_beyond (rest : Shape) (hfew : f.locals + f.maxStack ≤ 65531)
    (hmany : tempSlots < slotCount ((savedOf taken pattern).map (·.category))) :
    ∃ w ∈ saves (f.locals + f.maxStack) (pickedPlacements f taken rest pattern),
      f.locals + f.maxStack + tempSlots < w.target + w.value.category.slots := by
  obtain ⟨w, hw, hle, hlt⟩ : ∃ w ∈ placementsFrom (f.locals + f.maxStack)
      (savedValues (moved (pickedPlacements f taken rest pattern))), w.Covers (f.locals + f.maxStack + tempSlots) :=
    exists_covers ((slotCount_saved f taken rest pattern).symm ▸ hmany)
  have htarget : w.target % 65536 = w.target := Nat.mod_eq_of_lt (by unfold tempSlots at hle; omega)
  refine ⟨⟨w.target % 65536, w.value⟩, List.mem_map_of_mem hw, ?_⟩
  rwa [htarget]

/-- If the saved values fit the temporaries, all moves are between the stack and the temporaries. -/
theorem moves_within (hfew : f.locals + f.maxStack ≤ 65531)
    (hcount : slotCount ((savedOf taken pattern).map (·.category)) ≤ tempSlots)
    (hbelow : Below (f.locals + f.maxStack) (f.locals + slotCount rest) (picked f taken rest pattern)) :
    ∀ w ∈ saves (f.locals + f.maxStack) (pickedPlacements f taken rest pattern) ++
        arrivals (f.locals + f.maxStack) (pickedPlacements f taken rest pattern),
      (f.locals ≤ w.value.reg ∧ w.value.reg + w.value.category.slots ≤ f.locals + f.maxStack + tempSlots) ∧
        (f.locals ≤ w.target ∧ w.target + w.value.category.slots ≤ f.locals + f.maxStack + tempSlots) := by
  rw [← slotCount_saved f taken rest pattern] at hcount
  have hfit : TempsFit (f.locals + f.maxStack) (pickedPlacements f taken rest pattern) := by
    unfold TempsFit
    unfold tempSlots at hcount
    omega
  have hsave {w : Placement} (hw : w ∈ saves (f.locals + f.maxStack) (pickedPlacements f taken rest pattern)) :
      f.locals + f.maxStack ≤ w.target ∧
        w.target + w.value.category.slots ≤ f.locals + f.maxStack + tempSlots := by
    rw [pickedPlacements, saves_eq hfit] at hw
    have hwithin := placementsFrom_within hw
    exact ⟨hwithin.1, hwithin.2.trans (Nat.add_le_add_left hcount _)⟩
  have hheld {v : Held} (hv : v ∈ picked f taken rest pattern) :
      f.locals ≤ v.reg ∧ v.reg + v.category.slots ≤ f.locals + f.maxStack :=
    ⟨(Nat.le_add_right ..).trans (picked_within hv).1, hbelow.held v hv⟩
  intro w hw
  rcases List.mem_append.mp hw with hw | hw
  · have hplaced := hsave hw
    rw [pickedPlacements, saves_eq hfit] at hw
    have hvalue := hheld (saved_subset (value_mem_of_placementsFrom hw))
    omega
  · obtain ⟨x, hx, rfl⟩ := List.mem_map.mp hw
    have hvalue := hheld (value_mem_of_moved hx)
    have hwithin := placementsFrom_within (List.mem_of_mem_filter hx)
    have hroom := hbelow.room
    dsimp only
    refine ⟨?_, by omega⟩
    unfold sourceOf
    cases hlookup : (savesFrom [] [] (f.locals + f.maxStack)
        (moved (pickedPlacements f taken rest pattern))).lookup x.value with
    | none =>
        rw [Option.getD_none]
        omega
    | some target =>
        have hplaced := hsave (mem_saves_of_lookup hlookup)
        dsimp only at hplaced
        rw [Option.getD_some]
        omega

end

/-- The moves of a shuffle have registers above the locals if the saved values fit the temporaries. -/
theorem shuffle_keeps_iff (hn : registerCount c.frame = .ok (c.frame.locals + c.frame.maxStack + tempSlots))
    (h : (perform c pc (.shuffle kind)).run s = .ok (e, t)) :
    (∀ i ∈ e.insns, Keeps c.frame (c.frame.locals + c.frame.maxStack + tempSlots) false false i) ↔
      slotCount (s.take (kind.depth s)) ≤ tempSlots := by
  obtain ⟨-, hfew⟩ := registerCount_ok hn
  obtain ⟨taken, rest, pattern, rfl, hlen, hexchange, hpicks, hpermute⟩ := shuffle_permutes h
  obtain ⟨hle, hall⟩ := savedOf_exchange hexchange
  obtain ⟨hinsns, hnew, -⟩ := permute_ok hpermute
  rw [← hlen, List.take_left, hinsns, movesFor_eq, List.forall_mem_map]
  simp only [keeps_move]
  constructor
  · intro hkeeps
    by_contra hmany
    have hmany : tempSlots < slotCount taken := Nat.not_le.mp hmany
    have hcount : tempSlots < slotCount ((savedOf taken pattern).map (·.category)) := by
      rwa [hall hmany, slotCount_reverse]
    obtain ⟨w, hw, hbeyond⟩ := exists_saved_beyond rest hfew hcount
    exact absurd (hkeeps w (List.mem_append_left _ hw)).2.2 (Nat.not_le_of_lt hbeyond)
  · intro hfits
    exact moves_within hfew (hle.trans hfits) (picked_below (room_before hpicks hpermute) hnew)

/-- An action keeps locals, stack and temporaries apart if and only if it stays in the frame. -/
theorem keeps_iff (hn : registerCount c.frame = .ok (c.frame.locals + c.frame.maxStack + tempSlots))
    (hfits : slotCount s ≤ max c.frame.maxStack 1) (h : (perform c pc action).run s = .ok (e, t)) :
    (∀ i ∈ e.insns, Keeps c.frame (c.frame.locals + c.frame.maxStack + tempSlots) action.localRead?.isSome
      action.localWritten?.isSome i) ↔ action.InFrame c.frame s := by
  have hflat := perform_flat c pc action s _ h
  have hlocals : c.frame.locals ≤ c.frame.locals + c.frame.maxStack + tempSlots := by omega
  cases action with
  | shuffle kind => exact shuffle_keeps_iff hn h
  | load type index =>
      obtain ⟨hroom, h⟩ := StackM.push_then h
      obtain ⟨rfl, rfl⟩ := StackM.pure_ok.mp h
      refine List.forall_mem_singleton.trans (keeps_between.trans ?_)
      rw [slotCount_cons] at hroom
      exact ⟨fun h => (lie_local hlocals).mp h.1, fun hin => ⟨(lie_local hlocals).mpr hin,
        lie_above.mpr ⟨Nat.le_add_right .., by omega⟩⟩⟩
  | store type index =>
      unfold perform at h
      dsimp only at h
      split at h
      · obtain ⟨_, _, h, -⟩ := StackM.bind_ok.mp h
        exact (StackM.fail_ok.mp h).elim
      · obtain ⟨rest, rfl, h₁⟩ := StackM.pop_then h
        obtain ⟨rfl, rfl⟩ := StackM.pure_ok.mp h₁
        refine List.forall_mem_singleton.trans (keeps_between.trans ?_)
        rw [slotCount_cons] at hfits
        have hslots : (Category.ofType type).slots ≤ 2 := Category.slots_le _
        have htemps : tempSlots = 4 := rfl
        exact ⟨fun h => (lie_local hlocals).mp h.2, fun hin => ⟨lie_above.mpr ⟨Nat.le_add_right .., by omega⟩,
          (lie_local hlocals).mpr hin⟩⟩
  | increment index delta =>
      obtain ⟨rfl, rfl⟩ := StackM.pure_ok.mp h
      refine List.forall_mem_singleton.trans ?_
      have hreads : (Insn.of (.arith .add .int) [.ofTyped index .int, .lit delta .int]
          (some (.typed index .int)) pc).readCells = span index .one := rfl
      have hwrites : (Insn.of (.arith .add .int) [.ofTyped index .int, .lit delta .int]
          (some (.typed index .int)) pc).writeCells = span index .one := rfl
      exact ⟨fun h => (lie_local hlocals).mp (hreads ▸ h.reads), fun hin =>
        ⟨hreads ▸ (lie_local hlocals).mpr hin, hwrites ▸ (lie_local hlocals).mpr hin⟩⟩
  | _ =>
      have hperforms := (perform_performed h).2.2
      refine iff_of_true (keeps_of_performs ?_ rfl rfl hfits hflat hperforms) trivial
      exact fun _ => nofun

theorem Performs.fits (h : Performs c pc action s insns t) (hfits : slotCount s ≤ max c.frame.maxStack 1) :
    slotCount t ≤ max c.frame.maxStack 1 := by
  cases h with
  | values takes gives rest form room emits =>
      rw [slotCount_append] at hfits
      cases gives with
      | nil => exact (Nat.le_add_left ..).trans hfits
      | cons a gives => exact (room (List.cons_ne_nil a gives)).trans (Nat.le_max_left ..)
  | copies takes rest values held room => exact room.trans (Nat.le_max_left ..)

/-- What the search finds fits the stack, or is the exception of a handler. -/
theorem slotCount_le_of_shaped {code : Code} {handlers : Handlers} {shaped : List (RawOp × Option Shape)} {op : RawOp}
    (hshaped : shapedOps c code handlers = .ok shaped) (hmem : (op, some s) ∈ shaped) :
    slotCount s ≤ max c.frame.maxStack 1 := by
  obtain ⟨ops, hops, ⟨rfl, rfl⟩ | ⟨hnil, shapes, hshapes, rfl⟩⟩ := shapedOps_ok hshaped
  · cases hmem
  · have hsize : 0 < ops.toArray.size := by simpa using List.length_pos_iff.mpr hnil
    obtain ⟨i, -, hi⟩ := mem_shaped.mp hmem
    have hsearch := shapesOf_settled (P := fun _ s => slotCount s ≤ max c.frame.maxStack 1) hsize ?_ ?_ hshapes
    · exact (hsearch.2.1 i s hi).2
    · rintro i s (⟨-, rfl⟩ | ⟨rfl, -⟩)
      · exact Nat.zero_le _
      · exact Nat.le_max_right ..
    · rintro i s next t hfits ⟨op, e, -, hstep, -⟩ j -
      unfold step at hstep
      split at hstep
      · exact (perform_performed hstep).2.2.fits hfits
      · cases hstep

end

theorem handlerEntry_keeps (c : Context) (pc : Nat) (caught : Option Ty) :
    Keeps c.frame (c.frame.locals + c.frame.maxStack + tempSlots) false false (handlerEntry c pc caught) := by
  refine ⟨List.forall_mem_nil _, ?_⟩
  have hwrites : (handlerEntry c pc caught).writeCells =
      (Register.typed c.frame.locals (caught.getD (.object Ty.throwableClass))).cells := List.append_nil _
  rw [hwrites, cells_typed, lie_above]
  have hslots := Category.slots_le (.ofType (caught.getD (.object Ty.throwableClass)))
  exact ⟨Nat.le_refl _, by unfold tempSlots; omega⟩

theorem apart_iff {c : Context} {handlers : Handlers} {op : RawOp} {s : Shape} {part : List Insn}
    (hn : registerCount c.frame = .ok (c.frame.locals + c.frame.maxStack + tempSlots))
    (hfits : slotCount s ≤ max c.frame.maxStack 1) (h : writeOut c handlers op s = .ok part) :
    Apart c handlers (c.frame.locals + c.frame.maxStack + tempSlots) (op, some s) part ↔
      ∀ action, op.action? = some action → action.InFrame c.frame s := by
  obtain ⟨action, e, t, haction, hperform, hpart⟩ := writeOut_ok h
  have hkeeps := keeps_iff hn hfits hperform
  constructor
  · rintro ⟨action', e', t', haction', hperform', -, -, hapart⟩ action'' haction''
    obtain rfl := Option.some.inj (haction.symm.trans haction')
    obtain rfl := Option.some.inj (haction.symm.trans haction'')
    cases hperform.symm.trans hperform'
    exact hkeeps.mp hapart
  · intro hin
    exact ⟨action, e, t, haction, hperform, hpart, fun caught _ => handlerEntry_keeps c _ caught,
      hkeeps.mpr (hin action haction)⟩

theorem forall₂_iff_of_forall₂ {α β : Type} {R S : α → β → Prop} {P : α → Prop} {xs : List α} {ys : List β}
    (h : xs.Forall₂ R ys) (hiff : ∀ x ∈ xs, ∀ y, R x y → (S x y ↔ P x)) : xs.Forall₂ S ys ↔ ∀ x ∈ xs, P x := by
  induction h with
  | nil => exact iff_of_true .nil nofun
  | cons hxy _ ih =>
      obtain ⟨hhead, htail⟩ := List.forall_mem_cons.mp hiff
      rw [List.forall₂_cons, List.forall_mem_cons, ih htail, hhead _ hxy]

section

variable {c : Context} {code : Code} {handlers : Handlers} {shaped : List (RawOp × Option Shape)} {insns : List Insn}

theorem parts_apart_iff {n : Nat} {parts : List (List Insn)} (hn : registerCount c.frame = .ok n)
    (hshaped : shapedOps c code handlers = .ok shaped) (hparts : shaped.Forall₂ (IsPart c handlers) parts) :
    shaped.Forall₂ (Apart c handlers n) parts ↔
      ∀ op s action, (op, some s) ∈ shaped → op.action? = some action → action.InFrame c.frame s := by
  obtain ⟨rfl, -⟩ := registerCount_ok hn
  refine (forall₂_iff_of_forall₂ hparts (P := fun x =>
    ∀ s action, x.2 = some s → x.1.action? = some action → action.InFrame c.frame s) ?_).trans ?_
  · rintro ⟨op, shape⟩ hmem part hpart
    cases shape with
    | none => exact iff_of_true hpart nofun
    | some s =>
        rw [apart_iff hn (slotCount_le_of_shaped hshaped hmem) hpart]
        exact ⟨fun hin s' action hs => Option.some.inj hs ▸ hin action, fun hin action => hin s action rfl⟩
  · exact ⟨fun hin op s action hmem => hin (op, some s) hmem s action rfl,
      fun hin x hmem s action hs => hin x.1 s action (hs ▸ hmem)⟩

/-- The instructions of a method keep locals, stack and temporaries apart if and only if every local that is named is
one of the frame, both halves of a wide one, and no shuffle takes more slots than there are temporaries. -/
theorem decodeAll_apart_iff (h : decodeAll c code handlers = .ok insns) :
    ∃ n shaped parts, registerCount c.frame = .ok n ∧ shapedOps c code handlers = .ok shaped ∧
      shaped.Forall₂ (IsPart c handlers) parts ∧ insns = parts.flatten ∧
      (shaped.Forall₂ (Apart c handlers n) parts ↔
        ∀ op s action, (op, some s) ∈ shaped → op.action? = some action → action.InFrame c.frame s) := by
  obtain ⟨n, hn, -⟩ := bind_eq_ok.mp h
  obtain ⟨shaped, parts, hshaped, hparts, hinsns⟩ := decodeAll_parts h
  exact ⟨n, shaped, parts, hn, hshaped, hparts, hinsns, parts_apart_iff hn hshaped hparts⟩

/-- The opcode and the shape as a test: the action stays in the frame. -/
def staysInFrame (f : Frame) : RawOp × Option Shape → Bool
  | (op, some s) => op.action?.all fun action => action.InFrame f s
  | (_, none) => true

theorem all_staysInFrame {f : Frame} : shaped.all (staysInFrame f) = true ↔
    ∀ op s action, (op, some s) ∈ shaped → op.action? = some action → action.InFrame f s := by
  rw [List.all_eq_true]
  constructor
  · intro hall op s action hmem haction
    have hin := hall _ hmem
    simpa [staysInFrame, haction] using hin
  · rintro hin ⟨op, _ | s⟩ hmem
    · rfl
    · exact (Option.all_eq_true _ _).mpr fun action haction => decide_eq_true (hin op s action hmem haction)

end

/-- Adds one to a local and to a wide local, which is copied on the stack. -/
def addOnes : Code := #[0x84, 0x00, 0x01, 0x1f, 0x5c, 0x0a, 0x61, 0x40, 0xad]

theorem decodeAll_apart_addOnes : ∃ insns n shaped, ∃ parts : List (List Insn),
    decodeAll ⟨⟨3, 6⟩, .numbered [], "a.B"⟩ addOnes [] = .ok insns ∧ insns = parts.flatten ∧
      registerCount ⟨3, 6⟩ = .ok n ∧ shapedOps ⟨⟨3, 6⟩, .numbered [], "a.B"⟩ addOnes [] = .ok shaped ∧
        shaped.Forall₂ (Apart ⟨⟨3, 6⟩, .numbered [], "a.B"⟩ [] n) parts := by
  have hdecode : ((decodeAll ⟨⟨3, 6⟩, .numbered [], "a.B"⟩ addOnes []).toOption.any fun _ => true) = true := by
    decide +kernel
  have hstays : ((shapedOps ⟨⟨3, 6⟩, .numbered [], "a.B"⟩ addOnes []).toOption.any fun shaped =>
      shaped.all (staysInFrame ⟨3, 6⟩)) = true := by
    decide +kernel
  obtain ⟨insns, hinsns, -⟩ := exists_ok_of_any hdecode
  obtain ⟨shaped, hshaped, hstays⟩ := exists_ok_of_any hstays
  obtain ⟨n, shaped', parts, hn, hshaped', -, hflat, hiff⟩ := decodeAll_apart_iff hinsns
  obtain rfl := Except.ok.inj (hshaped.symm.trans hshaped')
  exact ⟨insns, n, shaped, parts, hinsns, hflat, hn, hshaped, hiff.mpr (all_staysInFrame.mp hstays)⟩

/-- Returns a local that the frame does not have. -/
def returnOutside : Code := #[0x1a, 0xac]

/-- The local that is read is the register that the stack begins with. -/
theorem not_apart_returnOutside : ∃ insns n shaped, ∃ parts : List (List Insn),
    decodeAll ⟨⟨0, 1⟩, .numbered [], "a.B"⟩ returnOutside [] = .ok insns ∧ insns = parts.flatten ∧
      registerCount ⟨0, 1⟩ = .ok n ∧ shapedOps ⟨⟨0, 1⟩, .numbered [], "a.B"⟩ returnOutside [] = .ok shaped ∧
        shaped.Forall₂ (IsPart ⟨⟨0, 1⟩, .numbered [], "a.B"⟩ []) parts ∧
          ¬shaped.Forall₂ (Apart ⟨⟨0, 1⟩, .numbered [], "a.B"⟩ [] n) parts := by
  have hdecode : ((decodeAll ⟨⟨0, 1⟩, .numbered [], "a.B"⟩ returnOutside []).toOption.any fun _ => true) = true := by
    decide +kernel
  have hleaves : ((shapedOps ⟨⟨0, 1⟩, .numbered [], "a.B"⟩ returnOutside []).toOption.any fun shaped =>
      !shaped.all (staysInFrame ⟨0, 1⟩)) = true := by
    decide +kernel
  obtain ⟨insns, hinsns, -⟩ := exists_ok_of_any hdecode
  obtain ⟨shaped, hshaped, hleaves⟩ := exists_ok_of_any hleaves
  obtain ⟨shaped', parts, hshaped', hparts, hflat⟩ := decodeAll_parts hinsns
  obtain rfl := Except.ok.inj (hshaped.symm.trans hshaped')
  refine ⟨insns, 5, shaped, parts, hinsns, hflat, rfl, hshaped, hparts, fun hapart => ?_⟩
  rw [all_staysInFrame.mpr ((parts_apart_iff rfl hshaped hparts).mp hapart)] at hleaves
  cases hleaves

end JavaLift.ClassFile
