import JavaLift.Proofs.ClassFile.Offsets

namespace JavaLift.ClassFile

/-- The values that are copied or exchanged, the topmost first, and those that take their place. Where sizes may
differ there is more than one form. -/
def Shuffle.forms : Shuffle → List (Shape × Shape)
  | .dup => [([.one], [.one, .one])]
  | .dupX1 => [([.one, .one], [.one, .one, .one])]
  | .dupX2 => [([.one, .one, .one], [.one, .one, .one, .one]), ([.one, .two], [.one, .two, .one])]
  | .dup2 => [([.one, .one], [.one, .one, .one, .one]), ([.two], [.two, .two])]
  | .dup2X1 => [([.one, .one, .one], [.one, .one, .one, .one, .one]), ([.two, .one], [.two, .one, .two])]
  | .dup2X2 => [([.one, .one, .one, .one], [.one, .one, .one, .one, .one, .one]),
    ([.two, .one, .one], [.two, .one, .one, .two]), ([.one, .one, .two], [.one, .one, .two, .one, .one]),
    ([.two, .two], [.two, .two, .two])]
  | .swap => [([.one, .one], [.one, .one])]

def Category.ofConstant : Constant → Category
  | .long _ | .double _ => .two
  | _ => .one

/-- The values that an action takes from the stack, the topmost first, and those that it puts there. There is no form if
what the action refers to is not in the pool. -/
def Action.forms (pool : Pool) : Action → List (Shape × Shape)
  | .nop | .increment .. | .jump _ | .returnVoid => [([], [])]
  | .pushNull | .pushInt _ | .pushFloat _ => [([], [.one])]
  | .pushLong _ | .pushDouble _ => [([], [.two])]
  | .loadConstant index => (pool.constant? index).toList.map fun k => ([], [.ofConstant k])
  | .load type _ => [([], [.ofType type])]
  | .store type _ | .returnValue type => [([.ofType type], [])]
  | .arrayLoad type => [([.one, .one], [.ofType type])]
  | .arrayStore type => [([.ofType type, .one, .one], [])]
  | .popTwo => [([.one, .one], []), ([.two], [])]
  | .shuffle kind => kind.forms
  | .arith op type => [([.ofType (if op.isShift then .int else type), .ofType type], [.ofType type])]
  | .neg type => [([.ofType type], [.ofType type])]
  | .convert source target => [([.ofType source], [.ofType target])]
  | .compare type => [([.ofType type, .ofType type], [.one])]
  | .pop | .ifZero .. | .switch .. | .throw | .monitorEnter | .monitorExit => [([.one], [])]
  | .ifPair .. => [([.one, .one], [])]
  | .getStatic index => (pool.field? index).toList.map fun f => ([], [.ofType f.type])
  | .putStatic index => (pool.field? index).toList.map fun f => ([.ofType f.type], [])
  | .getField index => (pool.field? index).toList.map fun f => ([.one], [.ofType f.type])
  | .putField index => (pool.field? index).toList.map fun f => ([.ofType f.type, .one], [])
  | .call kind index => (pool.method? index).toList.map fun m =>
    (m.params.reverse.map .ofType ++ (if kind = .static then [] else [.one]),
      if m.ret = .void then [] else [.ofType m.ret])
  | .newObject index => (pool.type? index).toList.map fun _ => ([], [.one])
  | .newArray index | .checkCast index | .instanceOf index => (pool.type? index).toList.map fun _ => ([.one], [.one])
  | .newPrimitives _ | .arrayLength => [([.one], [.one])]

def Action.goesOn : Action → Bool
  | .jump _ | .switch .. | .returnValue _ | .returnVoid | .throw => false
  | _ => true

def Action.jumps : Action → List Nat
  | .ifZero _ target | .ifPair _ target | .jump target => [target]
  | .switch cases default => cases.map (·.2) ++ [default]
  | _ => []

def Action.localRead? : Action → Option Nat
  | .load _ index | .increment index _ => some index
  | _ => none

def Action.localWritten? : Action → Option Nat
  | .store _ index | .increment index _ => some index
  | _ => none

theorem slotCount_cons (c : Category) (s : Shape) : slotCount (c :: s) = c.slots + slotCount s := rfl

theorem heldFrom_append (reg : Nat) (below above : List Category) :
    heldFrom reg (below ++ above) = heldFrom reg below ++ heldFrom (reg + slotCount below) above := by
  induction below generalizing reg with
  | nil => simp [heldFrom, slotCount]
  | cons c below ih => simp [heldFrom, ih, slotCount_cons, Nat.add_assoc]

theorem slotCount_eq_sum (s : Shape) : slotCount s = (s.map Category.slots).sum := by
  induction s with
  | nil => rfl
  | cons c s ih => rw [slotCount_cons, ih, List.map_cons, List.sum_cons]

theorem slotCount_append (s t : Shape) : slotCount (s ++ t) = slotCount s + slotCount t := by simp [slotCount_eq_sum]

theorem slotCount_reverse (s : Shape) : slotCount s.reverse = slotCount s := by
  simp [slotCount_eq_sum, List.sum_reverse]

namespace StackM

variable {α β : Type} {f : Frame} {pc : Nat} {c : Category} {s t : Shape} {r : Nat}

theorem bind_ok {m : StackM α} {g : α → StackM β} {b : β} : (m >>= g).run s = .ok (b, t) ↔
    ∃ a u, m.run s = .ok (a, u) ∧ (g a).run u = .ok (b, t) := by
  rw [StateT.run_bind, bind_eq_ok, Prod.exists]

theorem pure_ok {a b : α} : (pure a : StackM α).run s = .ok (b, t) ↔ a = b ∧ s = t := by
  change Except.ok (a, s) = _ ↔ _
  rw [Except.ok.injEq, Prod.mk.injEq]

theorem get_ok {u : Shape} : (get : StackM Shape).run s = .ok (u, t) ↔ s = u ∧ s = t := by
  change Except.ok (s, s) = _ ↔ _
  rw [Except.ok.injEq, Prod.mk.injEq]

theorem set_ok {u : Shape} {x : PUnit} : (set u : StackM PUnit).run s = .ok (x, t) ↔ u = t := by
  change Except.ok (PUnit.unit, u) = _ ↔ _
  rw [Except.ok.injEq, Prod.mk.injEq]
  exact and_iff_right rfl

theorem fail_ok {cause : Malformation} {a : α} : (fail pc cause : StackM α).run s = .ok (a, t) ↔ False :=
  ⟨nofun, False.elim⟩

theorem pop_ok : (pop f pc c).run s = .ok (r, t) ↔ s = c :: t ∧ r = f.locals + slotCount t := by
  unfold pop
  simp only [bind_ok, get_ok]
  constructor
  · rintro ⟨_, _, ⟨rfl, rfl⟩, h⟩
    cases s with
    | nil => exact (fail_ok.mp h).elim
    | cons top rest =>
        simp only at h
        split at h
        · obtain ⟨_, _, h, -⟩ := bind_ok.mp h
          exact (fail_ok.mp h).elim
        · rename_i htop
          obtain ⟨_, _, hset, h⟩ := bind_ok.mp h
          obtain rfl := set_ok.mp hset
          obtain ⟨rfl, rfl⟩ := pure_ok.mp h
          exact ⟨by rw [not_not.mp htop], rfl⟩
  · rintro ⟨rfl, rfl⟩
    refine ⟨_, _, ⟨rfl, rfl⟩, ?_⟩
    simp only [ne_eq, not_true_eq_false, if_false]
    exact bind_ok.mpr ⟨(), _, set_ok.mpr rfl, pure_ok.mpr ⟨rfl, rfl⟩⟩

theorem push_ok : (push f pc c).run s = .ok (r, t) ↔
    slotCount s + c.slots ≤ f.maxStack ∧ t = c :: s ∧ r = f.locals + slotCount s := by
  unfold push
  simp only [bind_ok, get_ok]
  constructor
  · rintro ⟨_, _, ⟨rfl, rfl⟩, h⟩
    split at h
    · obtain ⟨_, _, h, -⟩ := bind_ok.mp h
      exact (fail_ok.mp h).elim
    · rename_i hroom
      obtain ⟨_, _, hset, h⟩ := bind_ok.mp h
      obtain rfl := set_ok.mp hset
      obtain ⟨rfl, rfl⟩ := pure_ok.mp h
      exact ⟨Nat.not_lt.mp hroom, rfl, rfl⟩
  · rintro ⟨hroom, rfl, rfl⟩
    refine ⟨_, _, ⟨rfl, rfl⟩, ?_⟩
    rw [if_neg (Nat.not_lt.mpr hroom)]
    exact bind_ok.mpr ⟨(), _, set_ok.mpr rfl, pure_ok.mpr ⟨rfl, rfl⟩⟩

theorem popTwo_ok {u : Unit} (h : (popTwo pc).run s = .ok (u, t)) : s = .two :: t ∨ s = .one :: .one :: t := by
  unfold popTwo at h
  obtain ⟨_, _, hget, h⟩ := bind_ok.mp h
  obtain ⟨rfl, rfl⟩ := get_ok.mp hget
  split at h
  · exact .inl (by rw [set_ok.mp h])
  · exact .inr (by rw [set_ok.mp h])
  · exact (fail_ok.mp h).elim
  · exact (fail_ok.mp h).elim

theorem peek_ok {depth : Nat} : (peek pc depth).run s = .ok (c, t) ↔ s[depth]? = some c ∧ s = t := by
  unfold peek
  simp only [bind_ok, get_ok]
  constructor
  · rintro ⟨_, _, ⟨rfl, rfl⟩, h⟩
    split at h
    · rename_i hc
      obtain ⟨rfl, rfl⟩ := pure_ok.mp h
      exact ⟨hc, rfl⟩
    · exact (fail_ok.mp h).elim
  · rintro ⟨hc, rfl⟩
    exact ⟨_, _, ⟨rfl, rfl⟩, by rw [hc]; exact pure_ok.mpr ⟨rfl, rfl⟩⟩

theorem reference_ok {kind : RefKind} {found : Option α} {index : Nat} {a : α} :
    (reference kind found index pc).run s = .ok (a, t) ↔ found = some a ∧ s = t := by
  cases found with
  | none => exact ⟨nofun, fun h => nomatch h.1⟩
  | some b => rw [reference, pure_ok, Option.some.injEq]

theorem pop_then {g : Nat → StackM β} {b : β} (h : (pop f pc c >>= g).run s = .ok (b, t)) :
    ∃ u, s = c :: u ∧ (g (f.locals + slotCount u)).run u = .ok (b, t) := by
  obtain ⟨_, u, hpop, h⟩ := bind_ok.mp h
  obtain ⟨rfl, rfl⟩ := pop_ok.mp hpop
  exact ⟨u, rfl, h⟩

theorem push_then {g : Nat → StackM β} {b : β} (h : (push f pc c >>= g).run s = .ok (b, t)) :
    slotCount (c :: s) ≤ f.maxStack ∧ (g (f.locals + slotCount s)).run (c :: s) = .ok (b, t) := by
  obtain ⟨_, u, hpush, h⟩ := bind_ok.mp h
  obtain ⟨hroom, rfl, rfl⟩ := push_ok.mp hpush
  exact ⟨by rwa [slotCount_cons, Nat.add_comm], h⟩

theorem reference_then {kind : RefKind} {found : Option α} {index : Nat} {g : α → StackM β} {b : β}
    (h : (reference kind found index pc >>= g).run s = .ok (b, t)) :
    ∃ a, found = some a ∧ (g a).run s = .ok (b, t) := by
  obtain ⟨a, u, href, h⟩ := bind_ok.mp h
  obtain ⟨hfound, rfl⟩ := reference_ok.mp href
  exact ⟨a, hfound, h⟩

end StackM

/-- The registers of values that lie on a part of the stack, given from the top, the lowest first. -/
def heldRegs (f : Frame) (rest values : Shape) : List Nat :=
  (heldFrom (f.locals + slotCount rest) values.reverse).map (·.reg)

theorem heldRegs_append (f : Frame) (rest above below : Shape) :
    heldRegs f rest (above ++ below) = heldRegs f rest below ++ heldRegs f (below ++ rest) above := by
  simp [heldRegs, heldFrom_append, slotCount_reverse, slotCount_append, Nat.add_assoc, Nat.add_comm]

theorem heldRegs_cons (f : Frame) (rest values : Shape) (c : Category) :
    heldRegs f rest (c :: values) = heldRegs f rest values ++ [f.locals + slotCount (values ++ rest)] :=
  heldRegs_append f rest [c] values

theorem heldRegs_pair (f : Frame) (rest : Shape) (b a : Category) :
    heldRegs f rest [b, a] = [f.locals + slotCount rest, f.locals + slotCount (a :: rest)] := by
  rw [heldRegs_cons, heldRegs_cons]
  rfl

theorem heldRegs_triple (f : Frame) (rest : Shape) (c b a : Category) :
    heldRegs f rest [c, b, a] =
      [f.locals + slotCount rest, f.locals + slotCount (a :: rest), f.locals + slotCount (b :: a :: rest)] := by
  rw [heldRegs_cons, heldRegs_pair]
  rfl

def argRegs (args : List Arg) : List Nat := (args.filterMap Arg.reg?).map (·.reg)

theorem popEach_ok {f : Frame} {pc : Nat} {types : List Ty} {s t : Shape} {args : List Arg}
    (h : (types.mapM fun type => do return Arg.ofTyped (← StackM.pop f pc (.ofType type)) type : StackM _).run s =
      .ok (args, t)) :
    s = types.map .ofType ++ t ∧ argRegs args.reverse = heldRegs f t (types.map .ofType) := by
  induction types generalizing s args with
  | nil =>
      obtain ⟨rfl, rfl⟩ := StackM.pure_ok.mp h
      exact ⟨rfl, rfl⟩
  | cons type types ih =>
      rw [List.mapM_cons] at h
      obtain ⟨a, v, ha, h⟩ := StackM.bind_ok.mp h
      obtain ⟨as, w, has, h⟩ := StackM.bind_ok.mp h
      obtain ⟨rfl, rfl⟩ := StackM.pure_ok.mp h
      obtain ⟨r, x, hr, ha⟩ := StackM.bind_ok.mp ha
      obtain ⟨rfl, rfl⟩ := StackM.pop_ok.mp hr
      obtain ⟨rfl, rfl⟩ := StackM.pure_ok.mp ha
      obtain ⟨rfl, hregs⟩ := ih has
      refine ⟨rfl, ?_⟩
      rw [List.map_cons, heldRegs_cons, ← hregs]
      simp [argRegs, Arg.ofTyped, Arg.reg?, Register.typed]

theorem popArguments_ok {f : Frame} {pc : Nat} {types : List Ty} {s t : Shape} {args : List Arg}
    (h : (popArguments f pc types).run s = .ok (args, t)) :
    s = types.reverse.map .ofType ++ t ∧ argRegs args = heldRegs f t (types.reverse.map .ofType) := by
  obtain ⟨popped, u, hpopped, h⟩ := StackM.bind_ok.mp h
  obtain ⟨rfl, rfl⟩ := StackM.pure_ok.mp h
  exact popEach_ok hpopped

/-- An action becomes one instruction, unless it is silent. The instruction reads the local of the action and the values
that are taken, the lowest first, and writes the local or the value that is put on the stack. -/
def Action.Emits (f : Frame) (action : Action) (takes gives rest : Shape) (insns : List Insn) : Prop :=
  if action.isSilent then insns = []
  else ∃ i, insns = [i] ∧ argRegs i.args = action.localRead?.toList ++ heldRegs f rest takes ∧
    i.result.map (·.reg) = if gives = [] then action.localWritten? else some (f.locals + slotCount rest)

/-- What an action does to the stack, and the instructions that it becomes. A shuffle moves the values that it takes,
and puts copies of them in their place. -/
inductive Performs (c : Context) (pc : Nat) : Action → Shape → List Insn → Shape → Prop where
  | values {action : Action} {insns : List Insn} (takes gives rest : Shape)
      (form : (takes, gives) ∈ action.forms c.pool)
      (room : gives ≠ [] → slotCount (gives ++ rest) ≤ c.frame.maxStack)
      (emits : action.Emits c.frame takes gives rest insns) :
      Performs c pc action (takes ++ rest) insns (gives ++ rest)
  | copies {kind : Shuffle} (takes rest : Shape) (values : List Held)
      (held : values ⊆ heldFrom (c.frame.locals + slotCount rest) takes.reverse)
      (room : slotCount ((values.map (·.category)).reverse ++ rest) ≤ c.frame.maxStack) :
      Performs c pc (.shuffle kind) (takes ++ rest)
        (movesFor pc (c.frame.locals + c.frame.maxStack) (placementsFrom (c.frame.locals + slotCount rest) values))
        ((values.map (·.category)).reverse ++ rest)

theorem slots_intConstType (value : Int) : Category.ofType (intConstType value) = .one := by
  have hnarrow : (intConstType value).isWide = false := by
    unfold intConstType Candidates.ofLiteral
    rw [if_neg Bool.false_ne_true]
    split_ifs <;> rfl
  rw [Category.ofType, hnarrow]
  rfl

theorem shuffleOf_keeps {pc : Nat} {kind : Shuffle} {s t : Shape} {r : Nat × List Nat}
    (h : (shuffleOf pc kind).run s = .ok (r, t)) : s = t := by
  cases kind with
  | dup | dupX1 | swap => exact (StackM.pure_ok.mp h).2
  | dupX2 | dup2 | dup2X1 =>
      obtain ⟨a, u, hpeek, h⟩ := StackM.bind_ok.mp h
      obtain ⟨-, rfl⟩ := StackM.peek_ok.mp hpeek
      split at h
      · exact (StackM.pure_ok.mp h).2
      · exact (StackM.pure_ok.mp h).2
  | dup2X2 =>
      obtain ⟨a, u, ha, h⟩ := StackM.bind_ok.mp h
      obtain ⟨-, rfl⟩ := StackM.peek_ok.mp ha
      obtain ⟨b, v, hb, h⟩ := StackM.bind_ok.mp h
      obtain ⟨-, rfl⟩ := StackM.peek_ok.mp hb
      split at h
      · exact (StackM.pure_ok.mp h).2
      · exact (StackM.pure_ok.mp h).2
      · obtain ⟨d, w, hd, h⟩ := StackM.bind_ok.mp h
        obtain ⟨-, rfl⟩ := StackM.peek_ok.mp hd
        split at h
        · exact (StackM.pure_ok.mp h).2
        · exact (StackM.pure_ok.mp h).2

theorem permute_performs {c : Context} {pc take : Nat} {pattern : List Nat} {kind : Shuffle} {s t : Shape}
    {insns : List Insn} (h : (permute c.frame pc take pattern).run s = .ok (insns, t)) :
    Performs c pc (.shuffle kind) s insns t := by
  obtain ⟨-, values, hvalues, rfl, hroom, rfl⟩ := permute_eq_ok h
  have hheld : values ⊆ heldFrom (c.frame.locals + slotCount (s.drop take)) (s.take take).reverse := by
    intro v hv
    rw [hvalues] at hv
    obtain ⟨k, -, hk⟩ := List.mem_filterMap.mp hv
    exact List.mem_of_getElem? hk
  have hfits : slotCount ((values.map (·.category)).reverse ++ s.drop take) ≤ c.frame.maxStack := by
    rw [slotCount_append, slotCount_reverse]
    omega
  have hperforms : Performs c pc (.shuffle kind) (s.take take ++ s.drop take) _ _ := .copies _ _ values hheld hfits
  rwa [List.take_append_drop] at hperforms

section

variable {c : Context} {pc : Nat} {s t : Shape} {e : Effect}

/-- The goal about an action, once it has been followed: where control goes on, and what it does. -/
def Performed (c : Context) (pc : Nat) (action : Action) (s : Shape) (e : Effect) (t : Shape) : Prop :=
  e.falls = action.goesOn ∧ e.targets = action.jumps ∧ Performs c pc action s e.insns t

theorem isStatic_invokeKind (kind : CallKind) (className : String) (m : MethodRef) :
    (kind.invokeKind className m).isStatic = true ↔ kind = .static := by
  cases kind with
  | special =>
      unfold CallKind.invokeKind
      dsimp only
      split <;> exact iff_of_false Bool.false_ne_true nofun
  | virtual | interface => exact iff_of_false Bool.false_ne_true nofun
  | static => exact iff_of_true rfl rfl

open StackM in
theorem call_performed {kind : CallKind} {index : Nat} {m : MethodRef} {args : List Arg} {takes rest : Shape}
    (hfound : c.pool.method? index = some m)
    (htakes : takes = m.params.reverse.map .ofType ++ if kind = .static then [] else [.one])
    (hregs : argRegs args = heldRegs c.frame rest takes)
    (h : (do
      let result ← if m.ret = .void then pure none else do
        let r ← push c.frame pc (.ofType m.ret)
        pure (some (Register.typed r m.ret))
      pure (.next [.of (.invoke (kind.invokeKind c.className m) m) args result pc]) : StackM Effect).run rest =
        .ok (e, t)) :
    Performed c pc (.call kind index) (takes ++ rest) e t := by
  have hform : (takes, if m.ret = .void then [] else [.ofType m.ret]) ∈ (Action.call kind index).forms c.pool := by
    rw [htakes, Action.forms, hfound]
    exact List.mem_singleton_self _
  by_cases hvoid : m.ret = .void
  · rw [if_pos hvoid] at hform
    simp only [hvoid, if_true] at h
    obtain ⟨rfl, rfl⟩ := pure_ok.mp h
    exact ⟨rfl, rfl, .values _ [] _ hform nofun ⟨_, rfl, hregs, rfl⟩⟩
  · rw [if_neg hvoid] at hform
    simp only [hvoid, if_false] at h
    obtain ⟨hroom, h₁⟩ := push_then h
    obtain ⟨rfl, rfl⟩ := pure_ok.mp h₁
    exact ⟨rfl, rfl, .values _ [_] _ hform (fun _ => hroom) ⟨_, rfl, hregs, rfl⟩⟩

open StackM in
/-- Each action takes its values from the top of the stack and puts others in their place, on the registers of these
slots. -/
theorem perform_performed {action : Action} (h : (perform c pc action).run s = .ok (e, t)) :
    Performed c pc action s e t := by
  cases action with
  | nop | returnVoid | jump | increment =>
      obtain ⟨rfl, rfl⟩ := pure_ok.mp h
      exact ⟨rfl, rfl, .values [] [] s (List.mem_singleton_self _) nofun (by first | rfl | exact ⟨_, rfl, rfl, rfl⟩)⟩
  | pushNull | pushLong | pushFloat | pushDouble | load =>
      obtain ⟨hroom, h⟩ := push_then h
      obtain ⟨rfl, rfl⟩ := pure_ok.mp h
      exact ⟨rfl, rfl, .values [] [_] s (List.mem_singleton_self _) (fun _ => hroom) ⟨_, rfl, rfl, rfl⟩⟩
  | pushInt value =>
      obtain ⟨hroom, h⟩ := push_then h
      obtain ⟨rfl, rfl⟩ := pure_ok.mp h
      exact ⟨rfl, rfl, .values [] [_] s (by simp [Action.forms, slots_intConstType]) (fun _ => hroom)
        ⟨_, rfl, rfl, rfl⟩⟩
  | loadConstant index =>
      obtain ⟨constant, hfound, h⟩ := reference_then h
      cases constant with
      | int value =>
          obtain ⟨hroom, h⟩ := push_then h
          obtain ⟨rfl, rfl⟩ := pure_ok.mp h
          exact ⟨rfl, rfl, .values [] [_] s (by simp [Action.forms, hfound, Category.ofConstant, slots_intConstType])
            (fun _ => hroom) ⟨_, rfl, rfl, rfl⟩⟩
      | float | long | double | string | cls =>
          obtain ⟨hroom, h⟩ := push_then h
          obtain ⟨rfl, rfl⟩ := pure_ok.mp h
          exact ⟨rfl, rfl, .values [] [_] s (by rw [Action.forms, hfound]; exact List.mem_singleton_self _)
            (fun _ => hroom) ⟨_, rfl, rfl, rfl⟩⟩
  | store type index =>
      unfold perform at h
      dsimp only at h
      split at h
      · obtain ⟨_, _, h, -⟩ := bind_ok.mp h
        exact (fail_ok.mp h).elim
      · obtain ⟨u, rfl, h₁⟩ := pop_then h
        obtain ⟨rfl, rfl⟩ := pure_ok.mp h₁
        exact ⟨rfl, rfl, .values [_] [] _ (List.mem_singleton_self _) nofun ⟨_, rfl, rfl, rfl⟩⟩
  | pop =>
      obtain ⟨u, rfl, h₁⟩ := pop_then h
      obtain ⟨rfl, rfl⟩ := pure_ok.mp h₁
      exact ⟨rfl, rfl, .values [_] [] _ (List.mem_singleton_self _) nofun rfl⟩
  | returnValue | ifZero | switch | throw | monitorEnter | monitorExit =>
      obtain ⟨u, rfl, h₁⟩ := pop_then h
      obtain ⟨rfl, rfl⟩ := pure_ok.mp h₁
      exact ⟨rfl, rfl, .values [_] [] _ (List.mem_singleton_self _) nofun ⟨_, rfl, rfl, rfl⟩⟩
  | ifPair =>
      obtain ⟨u, rfl, h₁⟩ := pop_then h
      obtain ⟨v, rfl, h₂⟩ := pop_then h₁
      obtain ⟨rfl, rfl⟩ := pure_ok.mp h₂
      exact ⟨rfl, rfl, .values [_, _] [] _ (List.mem_singleton_self _) nofun ⟨_, rfl, (heldRegs_pair ..).symm, rfl⟩⟩
  | arrayStore =>
      obtain ⟨u, rfl, h₁⟩ := pop_then h
      obtain ⟨v, rfl, h₂⟩ := pop_then h₁
      obtain ⟨w, rfl, h₃⟩ := pop_then h₂
      obtain ⟨rfl, rfl⟩ := pure_ok.mp h₃
      exact ⟨rfl, rfl, .values [_, _, _] [] _ (List.mem_singleton_self _) nofun
        ⟨_, rfl, (heldRegs_triple ..).symm, rfl⟩⟩
  | neg | convert | arrayLength =>
      obtain ⟨u, rfl, h₁⟩ := pop_then h
      obtain ⟨hroom, h₁⟩ := push_then h₁
      obtain ⟨rfl, rfl⟩ := pure_ok.mp h₁
      exact ⟨rfl, rfl, .values [_] [_] _ (List.mem_singleton_self _) (fun _ => hroom) ⟨_, rfl, rfl, rfl⟩⟩
  | arrayLoad | arith | compare =>
      obtain ⟨u, rfl, h₁⟩ := pop_then h
      obtain ⟨v, rfl, h₂⟩ := pop_then h₁
      obtain ⟨hroom, h₂⟩ := push_then h₂
      obtain ⟨rfl, rfl⟩ := pure_ok.mp h₂
      exact ⟨rfl, rfl, .values [_, _] [_] _ (List.mem_singleton_self _) (fun _ => hroom)
        ⟨_, rfl, (heldRegs_pair ..).symm, rfl⟩⟩
  | popTwo =>
      obtain ⟨_, u, hpop, h⟩ := bind_ok.mp h
      obtain ⟨rfl, rfl⟩ := pure_ok.mp h
      rcases popTwo_ok hpop with rfl | rfl
      · exact ⟨rfl, rfl, .values [_] [] _ (by simp [Action.forms]) nofun rfl⟩
      · exact ⟨rfl, rfl, .values [_, _] [] _ (by simp [Action.forms]) nofun rfl⟩
  | shuffle kind =>
      obtain ⟨⟨take, pattern⟩, u, hshuffle, h⟩ := bind_ok.mp h
      obtain rfl := shuffleOf_keeps hshuffle
      obtain ⟨insns, v, hpermute, h⟩ := bind_ok.mp h
      obtain ⟨rfl, rfl⟩ := pure_ok.mp h
      exact ⟨rfl, rfl, permute_performs hpermute⟩
  | getStatic =>
      obtain ⟨field, hfound, h⟩ := reference_then h
      obtain ⟨hroom, h⟩ := push_then h
      obtain ⟨rfl, rfl⟩ := pure_ok.mp h
      exact ⟨rfl, rfl, .values [] [_] _ (by simp [Action.forms, hfound]) (fun _ => hroom) ⟨_, rfl, rfl, rfl⟩⟩
  | putStatic =>
      obtain ⟨field, hfound, h⟩ := reference_then h
      obtain ⟨u, rfl, h₁⟩ := pop_then h
      obtain ⟨rfl, rfl⟩ := pure_ok.mp h₁
      exact ⟨rfl, rfl, .values [_] [] _ (by simp [Action.forms, hfound]) nofun ⟨_, rfl, rfl, rfl⟩⟩
  | getField | newArray | checkCast | instanceOf =>
      obtain ⟨found, hfound, h⟩ := reference_then h
      obtain ⟨u, rfl, h₁⟩ := pop_then h
      obtain ⟨hroom, h₁⟩ := push_then h₁
      obtain ⟨rfl, rfl⟩ := pure_ok.mp h₁
      exact ⟨rfl, rfl, .values [_] [_] _ (by simp [Action.forms, hfound]) (fun _ => hroom) ⟨_, rfl, rfl, rfl⟩⟩
  | putField =>
      obtain ⟨field, hfound, h⟩ := reference_then h
      obtain ⟨u, rfl, h₁⟩ := pop_then h
      obtain ⟨v, rfl, h₂⟩ := pop_then h₁
      obtain ⟨rfl, rfl⟩ := pure_ok.mp h₂
      exact ⟨rfl, rfl, .values [_, _] [] _ (by simp [Action.forms, hfound]) nofun
        ⟨_, rfl, (heldRegs_pair ..).symm, rfl⟩⟩
  | newObject =>
      obtain ⟨type, hfound, h⟩ := reference_then h
      obtain ⟨hroom, h⟩ := push_then h
      obtain ⟨rfl, rfl⟩ := pure_ok.mp h
      exact ⟨rfl, rfl, .values [] [_] _ (by simp [Action.forms, hfound]) (fun _ => hroom) ⟨_, rfl, rfl, rfl⟩⟩
  | newPrimitives code =>
      unfold perform at h
      dsimp only at h
      split at h
      · obtain ⟨_, _, hpure, h⟩ := bind_ok.mp h
        obtain ⟨rfl, rfl⟩ := pure_ok.mp hpure
        obtain ⟨u, rfl, h₁⟩ := pop_then h
        obtain ⟨hroom, h₁⟩ := push_then h₁
        obtain ⟨rfl, rfl⟩ := pure_ok.mp h₁
        exact ⟨rfl, rfl, .values [_] [_] _ (List.mem_singleton_self _) (fun _ => hroom) ⟨_, rfl, rfl, rfl⟩⟩
      · obtain ⟨_, _, h, -⟩ := bind_ok.mp h
        exact (fail_ok.mp h).elim
  | call kind index =>
      obtain ⟨m, hfound, h₁⟩ := reference_then h
      obtain ⟨params, u, hparams, h₂⟩ := bind_ok.mp h₁
      obtain ⟨rfl, hregs⟩ := popArguments_ok hparams
      dsimp only at h₂
      split at h₂
      · rename_i hstatic
        have hkind : kind = .static := (isStatic_invokeKind ..).mp hstatic
        exact call_performed hfound (by rw [if_pos hkind, List.append_nil]) hregs h₂
      · rename_i hstatic
        have hkind : kind ≠ .static := fun hkind => hstatic ((isStatic_invokeKind ..).mpr hkind)
        obtain ⟨v, rfl, h₃⟩ := pop_then h₂
        rw [List.append_cons]
        apply call_performed hfound (by rw [if_neg hkind]) _ h₃
        rw [heldRegs_append]
        exact congrArg (_ :: ·) hregs

end

end JavaLift.ClassFile
