import JavaLift.Proofs.ClassFile.Shapes

/-!
The stack machine: an instruction finds values of the sizes that it asks for on the stack and puts others in their
place, and control goes on to what comes next or jumps. The machine begins with an empty stack, or at a handler with the
exception. The shapes that the search finds are those of the machine, unless a handler starts at the entry, no exception
fits the stack, or a copy is made of half a value.
-/

namespace JavaLift.ClassFile

def Action.Steps (pool : Pool) (maxStack : Nat) (action : Action) (s t : Shape) : Prop :=
  ∃ takes gives rest, (takes, gives) ∈ action.forms pool ∧ s = takes ++ rest ∧ t = gives ++ rest ∧
    slotCount t ≤ maxStack

theorem Action.forms_eq {pool : Pool} {action : Action} {a b : Shape × Shape} {s t : Shape}
    (ha : a ∈ action.forms pool) (hb : b ∈ action.forms pool) (h : a.1 ++ s = b.1 ++ t) : a = b := by
  cases action with
  | popTwo =>
      simp only [forms, List.mem_cons, List.not_mem_nil, or_false] at ha hb
      rcases ha with rfl | rfl <;> rcases hb with rfl | rfl <;> first | rfl | cases h
  | shuffle kind =>
      cases kind
      all_goals simp only [forms, Shuffle.forms, List.mem_cons, List.not_mem_nil, or_false] at ha hb
      case dup | dupX1 | swap => rw [ha, hb]
      case dupX2 | dup2 | dup2X1 =>
        rcases ha with rfl | rfl <;> rcases hb with rfl | rfl <;> first | rfl | cases h
      case dup2X2 =>
        rcases ha with rfl | rfl | rfl | rfl <;> rcases hb with rfl | rfl | rfl | rfl <;> first | rfl | cases h
  | loadConstant | getStatic | putStatic | getField | putField | call | newObject | newArray | checkCast | instanceOf =>
      obtain ⟨x, hx, rfl⟩ := List.mem_map.mp ha
      obtain ⟨y, hy, rfl⟩ := List.mem_map.mp hb
      obtain rfl : x = y := Option.mem_unique (Option.mem_toList.mp hx) (Option.mem_toList.mp hy)
      rfl
  | _ =>
      rw [forms, List.mem_singleton] at ha hb
      rw [ha, hb]

section

variable {c : Context} {pc : Nat} {s t u : Shape} {e : Effect} {action : Action} {kind : Shuffle}

theorem category_heldFrom (reg : Nat) (values : List Category) :
    (heldFrom reg values).map (·.category) = values := by
  induction values generalizing reg with
  | nil => rfl
  | cons a values ih => rw [heldFrom, List.map_cons, ih]

theorem shuffle_ok (h : (perform c pc (.shuffle kind)).run s = .ok (e, t)) :
    ∃ take pattern, (shuffleOf pc kind).run s = .ok ((take, pattern), s) ∧ slotCount t ≤ c.frame.maxStack ∧
      t = (pattern.filterMap fun k => (s.take take).reverse[k]?).reverse ++ s.drop take := by
  obtain ⟨⟨take, pattern⟩, u, hshuffle, h⟩ := StackM.bind_ok.mp h
  obtain rfl := shuffleOf_keeps hshuffle
  obtain ⟨insns, v, hpermute, h⟩ := StackM.bind_ok.mp h
  obtain ⟨-, rfl⟩ := StackM.pure_ok.mp h
  obtain ⟨-, values, hvalues, -, hroom, rfl⟩ := permute_eq_ok hpermute
  refine ⟨take, pattern, hshuffle, by rw [slotCount_append, slotCount_reverse]; omega, ?_⟩
  have hmap (held : List Held) : (pattern.filterMap fun k => held[k]?).map (·.category) =
      pattern.filterMap fun k => (held.map (·.category))[k]? := by
    simp [List.map_filterMap]
  rw [hvalues, hmap, category_heldFrom]

/-- A shuffle that finds values of the sizes that it asks for leaves what its form says. -/
theorem shuffle_form {takes gives rest : Shape} (hform : (takes, gives) ∈ kind.forms)
    (h : (perform c pc (.shuffle kind)).run (takes ++ rest) = .ok (e, t)) :
    t = gives ++ rest ∧ slotCount t ≤ c.frame.maxStack := by
  obtain ⟨take, pattern, hshuffle, hroom, ht⟩ := shuffle_ok h
  refine ⟨ht.trans ?_, hroom⟩
  clear h hroom ht
  cases kind
  all_goals simp only [Shuffle.forms, List.mem_cons, List.not_mem_nil, or_false, Prod.mk.injEq] at hform
  case dup | dupX1 | swap =>
    obtain ⟨rfl, rfl⟩ := hform
    cases hshuffle
    rfl
  case dupX2 | dup2 | dup2X1 =>
    rcases hform with ⟨rfl, rfl⟩ | ⟨rfl, rfl⟩ <;> cases hshuffle <;> rfl
  case dup2X2 =>
    rcases hform with ⟨rfl, rfl⟩ | ⟨rfl, rfl⟩ | ⟨rfl, rfl⟩ | ⟨rfl, rfl⟩ <;> cases hshuffle <;> rfl

/-- What the decoder leaves on the stack is what the machine leaves there, if it can step at all. -/
theorem shape_eq_of_steps (h : (perform c pc action).run s = .ok (e, t))
    (hsteps : action.Steps c.pool c.frame.maxStack s u) : t = u := by
  obtain ⟨takes, gives, rest, hform, hs, rfl, -⟩ := hsteps
  obtain ⟨-, -, hperforms⟩ := perform_performed h
  cases action with
  | shuffle kind =>
      subst hs
      exact (shuffle_form hform h).1
  | _ =>
      cases hperforms with
      | values takes' gives' rest' hform' =>
          cases Action.forms_eq hform' hform hs
          rw [List.append_cancel_left hs]

/-- The machine can step where the decoder can, if the values that are copied or exchanged are whole ones. -/
theorem exists_steps (h : (perform c pc action).run s = .ok (e, t)) (hroom : slotCount s ≤ c.frame.maxStack)
    (hwhole : ∀ kind, action = .shuffle kind → ∃ form ∈ kind.forms, form.1 <+: s) :
    ∃ u, action.Steps c.pool c.frame.maxStack s u := by
  obtain ⟨-, -, hperforms⟩ := perform_performed h
  cases action with
  | shuffle kind =>
      obtain ⟨⟨takes, gives⟩, hform, rest, rfl⟩ := hwhole kind rfl
      obtain ⟨rfl, hfits⟩ := shuffle_form hform h
      exact ⟨_, takes, gives, rest, hform, rfl, rfl, hfits⟩
  | _ =>
      cases hperforms with
      | values takes gives rest hform hgives =>
          refine ⟨_, takes, gives, rest, hform, rfl, rfl, ?_⟩
          by_cases hnil : gives = []
          · rw [slotCount_append] at hroom
            rw [hnil, List.nil_append]
            omega
          · exact hgives hnil

end

section

variable {code : Code} {pc : Nat} {ops : List RawOp} {op op' : RawOp}

/-- The opcodes that are read one after the other: each is what stands at its offset, and the next one follows its
operand. -/
theorem readFrom_ok (h : code.readFrom pc = .ok ops) :
    (∀ op ∈ ops, code.readOp op.offset = .ok op) ∧ (∀ op, ops.head? = some op → op.offset = pc) ∧
      ops.IsChain (fun op op' => op'.offset = op.offset + 1 + op.tail) ∧ (pc < code.size → ops ≠ []) := by
  fun_induction Code.readFrom code pc generalizing ops with
  | case1 pc hlt e he => cases h
  | case2 pc hlt op hop e he ih => cases h
  | case3 pc hlt op hop rest hrest ih =>
      cases h
      obtain ⟨hread, hhead, hchain, -⟩ := ih hrest
      obtain rfl := readOp_offset code pc op hop
      refine ⟨List.forall_mem_cons.mpr ⟨hop, hread⟩, ?_, ?_, fun _ => List.cons_ne_nil _ _⟩
      · intro first hfirst
        cases hfirst
        rfl
      · exact List.isChain_cons.mpr ⟨hhead, hchain⟩
  | case4 pc hend =>
      cases h
      exact ⟨List.forall_mem_nil _, by simp, .nil, fun hlt => (hend hlt).elim⟩

theorem offset_next (h : code.readFrom pc = .ok ops) {i : Nat} (hop : ops[i]? = some op)
    (hop' : ops[i + 1]? = some op') : op'.offset = op.offset + 1 + op.tail := by
  obtain ⟨-, -, hchain, -⟩ := readFrom_ok h
  obtain ⟨hi, rfl⟩ := List.getElem?_eq_some_iff.mp hop
  obtain ⟨hi', rfl⟩ := List.getElem?_eq_some_iff.mp hop'
  exact List.isChain_iff_getElem.mp hchain i hi'

theorem index_eq_of_offset (h : code.readFrom pc = .ok ops) {i j : Nat} (hi : ops[i]? = some op)
    (hj : ops[j]? = some op') (hoffset : op.offset = op'.offset) : i = j := by
  obtain ⟨-, -, hchain, -⟩ := readFrom_ok h
  have hlt : ops.IsChain (fun op op' => op.offset < op'.offset) := hchain.imp fun a b hab => by omega
  have hsorted : ops.Pairwise (fun op op' => op.offset < op'.offset) := hlt.pairwise
  obtain ⟨hi', rfl⟩ := List.getElem?_eq_some_iff.mp hi
  obtain ⟨hj', rfl⟩ := List.getElem?_eq_some_iff.mp hj
  rcases lt_trichotomy i j with hij | hij | hij
  · have := List.pairwise_iff_getElem.mp hsorted i j hi' hj' hij
    omega
  · exact hij
  · have := List.pairwise_iff_getElem.mp hsorted j i hj' hi' hij
    omega

end

/-- Where control may go after an opcode. -/
def RawOp.GoesTo (op : RawOp) (action : Action) (pc : Nat) : Prop :=
  action.goesOn = true ∧ pc = op.offset + 1 + op.tail ∨ pc ∈ action.jumps

/-- The machine gets to an offset with a stack, on some path. -/
inductive Arrives (c : Context) (code : Code) (handlers : Handlers) : Nat → Shape → Prop where
  | entry (inside : 0 < code.size) : Arrives c code handlers 0 []
  | handler {pc : Nat} (mem : pc ∈ handlers.map Prod.fst) (inside : pc < code.size) : Arrives c code handlers pc [.one]
  | step {pc pc' : Nat} {s t : Shape} {op : RawOp} {action : Action} (before : Arrives c code handlers pc s)
      (read : code.readOp pc = .ok op) (acts : op.action? = some action)
      (steps : action.Steps c.pool c.frame.maxStack s t) (goes : op.GoesTo action pc') : Arrives c code handlers pc' t

/-- The opcodes of a method, each with the shape that it is written out for if it has been reached. -/
def shapedOps (c : Context) (code : Code) (handlers : Handlers) : Except DecodeFault (List (RawOp × Option Shape)) := do
  let ops ← code.readFrom 0
  if ops.isEmpty then return []
  let shapes ← shapesOf c ops.toArray handlers
  return ops.zip shapes.toList

/-- The instructions of an opcode. Those of its action are on the registers of the values on the stack, and the one that
takes an exception puts it in the lowest of them. -/
def Written (c : Context) (handlers : Handlers) : RawOp × Option Shape → List Insn → Prop
  | (_, none), insns => insns = []
  | (op, some s), insns => ∃ action body t, op.action? = some action ∧ Performs c op.offset action s body t ∧
      insns = ((handlers.lookup op.offset).map (handlerEntry c op.offset)).toList ++ body

/-- Wherever the machine gets, the stack holds what the next instruction asks for and fits, and it has the shape that
this instruction is written out for; there is one such shape only. -/
structure StacksAgree (c : Context) (code : Code) (handlers : Handlers) (shaped : List (RawOp × Option Shape)) :
    Prop where
  fits : ∀ pc s, Arrives c code handlers pc s → slotCount s ≤ c.frame.maxStack
  steps : ∀ pc s, Arrives c code handlers pc s → ∃ op action t, code.readOp pc = .ok op ∧ op.action? = some action ∧
    (op, some s) ∈ shaped ∧ action.Steps c.pool c.frame.maxStack s t
  unique : ∀ pc s s', Arrives c code handlers pc s → Arrives c code handlers pc s' → s = s'

variable {c : Context} {code : Code} {handlers : Handlers} {insns : List Insn}

def IsPart (c : Context) (handlers : Handlers) : RawOp × Option Shape → List Insn → Prop
  | (_, none), part => part = []
  | (op, some s), part => writeOut c handlers op s = .ok part

theorem writeOut_ok {op : RawOp} {s : Shape} (h : writeOut c handlers op s = .ok insns) :
    ∃ action e t, op.action? = some action ∧ (perform c op.offset action).run s = .ok (e, t) ∧
      insns = ((handlers.lookup op.offset).map (handlerEntry c op.offset)).toList ++ e.insns := by
  obtain ⟨⟨e, t⟩, hstep, h⟩ := bind_eq_ok.mp h
  unfold step at hstep
  split at hstep
  · rename_i action haction
    refine ⟨action, e, t, haction, hstep, ?_⟩
    cases hlookup : handlers.lookup op.offset with
    | none =>
        rw [hlookup] at h
        cases h
        rfl
    | some caught =>
        rw [hlookup] at h
        cases h
        rfl
  · cases hstep

theorem decodeAll_parts (h : decodeAll c code handlers = .ok insns) :
    ∃ shaped parts, shapedOps c code handlers = .ok shaped ∧ shaped.Forall₂ (IsPart c handlers) parts ∧
      insns = parts.flatten := by
  obtain ⟨_, -, h⟩ := bind_eq_ok.mp h
  obtain ⟨ops, hops, h⟩ := bind_eq_ok.mp h
  unfold shapedOps
  rw [hops]
  by_cases hempty : ops.isEmpty = true
  · rw [if_pos hempty] at h
    cases h
    exact ⟨[], [], by simp [hempty, bind, Except.bind, pure, Except.pure], .nil, rfl⟩
  · rw [if_neg hempty] at h
    obtain ⟨shapes, hshapes, h⟩ := bind_eq_ok.mp h
    obtain ⟨parts, hparts, h⟩ := bind_eq_ok.mp h
    cases h
    refine ⟨ops.zip shapes.toList, parts, by simp [hempty, hshapes, bind, Except.bind, pure, Except.pure], ?_, rfl⟩
    apply (forall₂_of_mapM hparts).imp
    rintro ⟨op, shape⟩ part hpart
    cases shape with
    | none =>
        cases hpart
        rfl
    | some s => exact hpart

theorem decodeAll_written (h : decodeAll c code handlers = .ok insns) :
    ∃ shaped parts, shapedOps c code handlers = .ok shaped ∧ shaped.Forall₂ (Written c handlers) parts ∧
      insns = parts.flatten := by
  obtain ⟨shaped, parts, hshaped, hparts, hinsns⟩ := decodeAll_parts h
  refine ⟨shaped, parts, hshaped, hparts.imp ?_, hinsns⟩
  rintro ⟨op, shape⟩ part hpart
  cases shape with
  | none => exact hpart
  | some s =>
      obtain ⟨action, e, t, haction, hperform, hpart⟩ := writeOut_ok hpart
      exact ⟨action, e.insns, t, haction, (perform_performed hperform).2.2, hpart⟩

section

variable {ops : List RawOp} {shapes : Array (Option Shape)} {i : Nat} {s t : Shape}

theorem mem_shaped {op : RawOp} : (op, some s) ∈ ops.zip shapes.toList ↔
    ∃ i, ops[i]? = some op ∧ shapeAt shapes i = some s := by
  rw [List.mem_iff_getElem?]
  apply exists_congr
  intro i
  rw [List.getElem?_zip_eq_some, shapeAt, Option.join_eq_some_iff, ← @Array.getElem?_toList _ shapes]

theorem exists_next {pc pc' : Nat} {op : RawOp} {action : Action} (hops : code.readFrom pc = .ok ops)
    (hsettled : Settled c ops.toArray shapes i s) (hop : ops[i]? = some op) (haction : op.action? = some action)
    (hsteps : action.Steps c.pool c.frame.maxStack s t) (hgoes : op.GoesTo action pc') :
    ∃ j op', ops[j]? = some op' ∧ op'.offset = pc' ∧ shapeAt shapes j = some t := by
  obtain ⟨next, u, ⟨op₁, e, hop₁, hstep, hsuccessors⟩, hnext⟩ := hsettled
  obtain rfl : op = op₁ := Option.some.inj (hop.symm.trans (by simpa using hop₁))
  rw [step, haction] at hstep
  obtain rfl := shape_eq_of_steps hstep hsteps
  obtain ⟨hfalls, htargets, -⟩ := perform_performed hstep
  obtain ⟨hfall, htarget, -⟩ := successors_ok hsuccessors
  rcases hgoes with ⟨hon, rfl⟩ | hjump
  · obtain ⟨hi, hmem⟩ := hfall (hfalls.trans hon)
    obtain ⟨op', hop'⟩ : ∃ op', ops[i + 1]? = some op' := ⟨_, List.getElem?_eq_getElem (by simpa using hi)⟩
    exact ⟨i + 1, op', hop', offset_next hops hop hop', hnext _ hmem⟩
  · obtain ⟨j, hj, op', hop', hoffset⟩ := htarget pc' (htargets ▸ hjump)
    exact ⟨j, op', by simpa using hop', hoffset, hnext j hj⟩

/-- What comes after an instruction in the search is where the machine may go. -/
theorem goesTo_of_leads {pc j : Nat} {next : List Nat} {op op' : RawOp} {action : Action}
    (hops : code.readFrom pc = .ok ops) (hleads : Leads c ops.toArray i s next t) (hop : ops[i]? = some op)
    (haction : op.action? = some action) (hj : j ∈ next) (hop' : ops[j]? = some op') :
    op.GoesTo action op'.offset ∧ ∀ u, action.Steps c.pool c.frame.maxStack s u → t = u := by
  obtain ⟨op₁, e, hop₁, hstep, hsuccessors⟩ := hleads
  obtain rfl : op = op₁ := Option.some.inj (hop.symm.trans (by simpa using hop₁))
  rw [step, haction] at hstep
  refine ⟨?_, fun u hsteps => shape_eq_of_steps hstep hsteps⟩
  obtain ⟨hfalls, htargets, -⟩ := perform_performed hstep
  obtain ⟨-, -, hnext⟩ := successors_ok hsuccessors
  rcases hnext j hj with ⟨hfall, rfl⟩ | ⟨op₂, hop₂, hmem⟩
  · exact .inl ⟨hfalls ▸ hfall, offset_next hops hop hop'⟩
  · obtain rfl : op' = op₂ := Option.some.inj (hop'.symm.trans (by simpa using hop₂))
    exact .inr (htargets ▸ hmem)

end

section

variable {ops : List RawOp} {shapes : Array (Option Shape)}

theorem shapeAt_of_arrives (hops : code.readFrom 0 = .ok ops) (hnil : ops ≠ [])
    (hshapes : shapesOf c ops.toArray handlers = .ok shapes)
    (hfree : ∀ target ∈ handlers.map Prod.fst, target ≠ 0 ∧ 0 < c.frame.maxStack) {pc : Nat} {s : Shape}
    (h : Arrives c code handlers pc s) :
    slotCount s ≤ c.frame.maxStack ∧ ∃ i op, ops[i]? = some op ∧ op.offset = pc ∧ shapeAt shapes i = some s := by
  have hsize : 0 < ops.toArray.size := by simpa using List.length_pos_iff.mpr hnil
  obtain ⟨-, hsettled, hhandlers, hentry⟩ :=
    shapesOf_settled (P := fun _ _ => True) hsize (fun _ _ _ => trivial) (fun _ _ _ _ _ _ _ _ => trivial) hshapes
  obtain ⟨hread, hhead, -⟩ := readFrom_ok hops
  -- Along the path: each step of the machine is one that the search has followed.
  induction h with
  | entry inside =>
      obtain ⟨first, rest, rfl⟩ := List.exists_cons_of_ne_nil hnil
      have hzero : first.offset = 0 := hhead first rfl
      refine ⟨Nat.zero_le _, 0, first, rfl, hzero, hentry ?_⟩
      intro op hop hmem
      obtain rfl : first = op := by simpa using hop
      exact (hfree _ hmem).1 hzero
  | handler mem inside =>
      obtain ⟨i, op, hop, hoffset, hi⟩ := hhandlers _ mem
      exact ⟨(hfree _ mem).2, i, op, by simpa using hop, hoffset, hi⟩
  | step before read acts steps goes ih =>
      obtain ⟨-, i, op, hop, rfl, hi⟩ := ih
      obtain rfl := Except.ok.inj ((hread op (List.mem_of_getElem? hop)).symm.trans read)
      obtain ⟨j, op', hop', hoffset, hj⟩ := exists_next hops (hsettled i _ hi).1 hop acts steps goes
      obtain ⟨-, -, -, -, -, -, hroom⟩ := steps
      exact ⟨hroom, j, op', hop', hoffset, hj⟩

theorem arrives_of_shapeAt (hops : code.readFrom 0 = .ok ops) (hnil : ops ≠ [])
    (hshapes : shapesOf c ops.toArray handlers = .ok shapes)
    (hagree : StacksAgree c code handlers (ops.zip shapes.toList)) {i : Nat} {s : Shape} {op : RawOp}
    (hi : shapeAt shapes i = some s) (hop : ops[i]? = some op) : Arrives c code handlers op.offset s := by
  have hsize : 0 < ops.toArray.size := by simpa using List.length_pos_iff.mpr hnil
  obtain ⟨hread, hhead, -⟩ := readFrom_ok hops
  have hinside {op : RawOp} {i : Nat} (hop : ops[i]? = some op) : op.offset < code.size :=
    lt_of_mem_readFrom hops op (List.mem_of_getElem? hop)
  have hsearch := shapesOf_settled (P := fun i s => ∀ op, ops[i]? = some op → Arrives c code handlers op.offset s)
    hsize ?_ ?_ hshapes
  · exact (hsearch.2.1 i s hi).2 op hop
  · rintro i s (⟨rfl, rfl⟩ | ⟨rfl, op', hop', hmem⟩) op hop
    · have hzero : op.offset = 0 := hhead op (by rw [List.head?_eq_getElem?, hop])
      have hlt := hinside hop
      rw [hzero] at hlt ⊢
      exact .entry hlt
    · obtain rfl : op = op' := Option.some.inj (hop.symm.trans (by simpa using hop'))
      exact .handler hmem (hinside hop)
  · intro i s next t harrives hleads j hj op' hop'
    obtain ⟨op, -, hop, -⟩ := id hleads
    replace hop : ops[i]? = some op := by simpa using hop
    have hbefore := harrives op hop
    obtain ⟨op₁, action, u, hread₁, haction, -, hsteps⟩ := hagree.steps _ _ hbefore
    obtain rfl := Except.ok.inj ((hread op (List.mem_of_getElem? hop)).symm.trans hread₁)
    obtain ⟨hgoes, hshape⟩ := goesTo_of_leads hops hleads hop haction hj hop'
    obtain rfl := hshape u hsteps
    exact .step hbefore hread₁ haction hsteps hgoes

theorem stacksAgree_iff (hops : code.readFrom 0 = .ok ops) (hnil : ops ≠ [])
    (hshapes : shapesOf c ops.toArray handlers = .ok shapes) :
    StacksAgree c code handlers (ops.zip shapes.toList) ↔
      (∀ target ∈ handlers.map Prod.fst, target ≠ 0 ∧ 0 < c.frame.maxStack) ∧
        ∀ op s kind, (op, some s) ∈ ops.zip shapes.toList → op.action? = some (.shuffle kind) →
          ∃ form ∈ kind.forms, form.1 <+: s := by
  have hsize : 0 < ops.toArray.size := by simpa using List.length_pos_iff.mpr hnil
  obtain ⟨-, hsettled, hhandlers, -⟩ :=
    shapesOf_settled (P := fun _ _ => True) hsize (fun _ _ _ => trivial) (fun _ _ _ _ _ _ _ _ => trivial) hshapes
  obtain ⟨hread, -, -⟩ := readFrom_ok hops
  constructor
  · intro hagree
    constructor
    · intro target hmem
      obtain ⟨i, op, hop, rfl, -⟩ := hhandlers target hmem
      have hinside := lt_of_mem_readFrom hops op (List.mem_of_getElem? (by simpa using hop))
      have harrives : Arrives c code handlers op.offset [.one] := .handler hmem hinside
      refine ⟨fun hzero => ?_, hagree.fits _ _ harrives⟩
      rw [hzero] at harrives hinside
      cases hagree.unique _ _ _ harrives (.entry hinside)
    · intro op s kind hmem haction
      obtain ⟨i, hop, hi⟩ := mem_shaped.mp hmem
      obtain ⟨op₁, action, t, hread₁, haction₁, -, hsteps⟩ :=
        hagree.steps _ _ (arrives_of_shapeAt hops hnil hshapes hagree hi hop)
      obtain rfl := Except.ok.inj ((hread op (List.mem_of_getElem? hop)).symm.trans hread₁)
      obtain rfl := Option.some.inj (haction.symm.trans haction₁)
      obtain ⟨takes, gives, rest, hform, rfl, -⟩ := hsteps
      exact ⟨(takes, gives), hform, List.prefix_append _ _⟩
  · rintro ⟨hfree, hwhole⟩
    refine ⟨fun pc s h => (shapeAt_of_arrives hops hnil hshapes hfree h).1, ?_, ?_⟩
    · intro pc s h
      obtain ⟨hroom, i, op, hop, rfl, hi⟩ := shapeAt_of_arrives hops hnil hshapes hfree h
      have hmem : (op, some s) ∈ ops.zip shapes.toList := mem_shaped.mpr ⟨i, hop, hi⟩
      obtain ⟨next, t, ⟨op₁, e, hop₁, hstep, -⟩, -⟩ := (hsettled i s hi).1
      obtain rfl : op = op₁ := Option.some.inj (hop.symm.trans (by simpa using hop₁))
      unfold step at hstep
      split at hstep
      · rename_i action haction
        obtain ⟨u, hsteps⟩ := exists_steps hstep hroom fun kind hkind => hwhole op s kind hmem (hkind ▸ haction)
        exact ⟨op, action, u, hread op (List.mem_of_getElem? hop), haction, hmem, hsteps⟩
      · cases hstep
    · intro pc s s' h h'
      obtain ⟨-, i, op, hop, rfl, hi⟩ := shapeAt_of_arrives hops hnil hshapes hfree h
      obtain ⟨-, j, op', hop', hoffset, hj⟩ := shapeAt_of_arrives hops hnil hshapes hfree h'
      obtain rfl := index_eq_of_offset hops hop hop' hoffset.symm
      exact Option.some.inj (hi.symm.trans hj)

end

theorem shapedOps_ok {shaped : List (RawOp × Option Shape)} (h : shapedOps c code handlers = .ok shaped) :
    ∃ ops, code.readFrom 0 = .ok ops ∧ (ops = [] ∧ shaped = [] ∨
      ops ≠ [] ∧ ∃ shapes, shapesOf c ops.toArray handlers = .ok shapes ∧ shaped = ops.zip shapes.toList) := by
  obtain ⟨ops, hops, h⟩ := bind_eq_ok.mp h
  refine ⟨ops, hops, ?_⟩
  cases ops with
  | nil =>
      cases h
      exact .inl ⟨rfl, rfl⟩
  | cons op ops =>
      obtain ⟨shapes, hshapes, h⟩ := bind_eq_ok.mp h
      cases h
      exact .inr ⟨List.cons_ne_nil _ _, shapes, hshapes, rfl⟩

theorem not_arrives_of_empty (hempty : ¬0 < code.size) {pc : Nat} {s : Shape} : ¬Arrives c code handlers pc s := by
  intro h
  induction h with
  | entry inside => exact hempty inside
  | handler mem inside => omega
  | step before read acts steps goes ih => exact ih

/-- The machine finds the shapes that the instructions of a decoded method are written out for, on every path and in any
order of the search, exactly if no handler starts at the entry, an exception fits the stack, and the values that are
copied or exchanged are whole ones. -/
theorem decodeAll_stacksAgree_iff (h : decodeAll c code handlers = .ok insns) :
    ∃ shaped parts, shapedOps c code handlers = .ok shaped ∧ shaped.Forall₂ (Written c handlers) parts ∧
      insns = parts.flatten ∧ (StacksAgree c code handlers shaped ↔
        (0 < code.size → ∀ target ∈ handlers.map Prod.fst, target ≠ 0 ∧ 0 < c.frame.maxStack) ∧
          ∀ op s kind, (op, some s) ∈ shaped → op.action? = some (.shuffle kind) →
            ∃ form ∈ kind.forms, form.1 <+: s) := by
  obtain ⟨shaped, parts, hshaped, hwritten, hinsns⟩ := decodeAll_written h
  refine ⟨shaped, parts, hshaped, hwritten, hinsns, ?_⟩
  obtain ⟨ops, hops, ⟨rfl, rfl⟩ | ⟨hnil, shapes, hshapes, rfl⟩⟩ := shapedOps_ok hshaped
  · have hempty : ¬0 < code.size := fun hlt => (readFrom_ok hops).2.2.2 hlt rfl
    constructor
    · exact fun _ => ⟨fun hlt => (hempty hlt).elim, nofun⟩
    · have hnone {pc : Nat} {s : Shape} : ¬Arrives c code handlers pc s := not_arrives_of_empty hempty
      exact fun _ => ⟨fun _ _ h => (hnone h).elim, fun _ _ h => (hnone h).elim, fun _ _ _ h => (hnone h).elim⟩
  · obtain ⟨op, hop⟩ := List.exists_mem_of_ne_nil ops hnil
    have hpos : 0 < code.size := Nat.zero_lt_of_lt (lt_of_mem_readFrom hops op hop)
    rw [stacksAgree_iff hops hnil hshapes]
    exact and_congr_left fun _ => ⟨fun hfree _ => hfree, fun hfree => hfree hpos⟩

def copiesWhole : RawOp × Option Shape → Bool
  | (op, some s) => match op.action? with
    | some (.shuffle kind) => kind.forms.any fun form => form.1.isPrefixOf s
    | _ => true
  | (_, none) => true

/-- Returns its argument, or five if that is not zero; zero if something is thrown. -/
def fiveUnlessZero : Code := #[0x1a, 0x59, 0x99, 0x00, 0x05, 0x57, 0x08, 0xac, 0x57, 0x03, 0xac]

theorem decodeAll_stacksAgree_fiveUnlessZero :
    ∃ insns shaped, decodeAll ⟨⟨1, 2⟩, .numbered [], "a.B"⟩ fiveUnlessZero [(8, none)] = .ok insns ∧
      shapedOps ⟨⟨1, 2⟩, .numbered [], "a.B"⟩ fiveUnlessZero [(8, none)] = .ok shaped ∧
        StacksAgree ⟨⟨1, 2⟩, .numbered [], "a.B"⟩ fiveUnlessZero [(8, none)] shaped := by
  have hdecode : ((decodeAll ⟨⟨1, 2⟩, .numbered [], "a.B"⟩ fiveUnlessZero [(8, none)]).toOption.any fun _ => true) =
      true := by
    decide +kernel
  have hcopies : ((shapedOps ⟨⟨1, 2⟩, .numbered [], "a.B"⟩ fiveUnlessZero [(8, none)]).toOption.any fun shaped =>
      shaped.all copiesWhole) = true := by
    decide +kernel
  obtain ⟨insns, hinsns, -⟩ := exists_ok_of_any hdecode
  obtain ⟨shaped, hshaped, hcopies⟩ := exists_ok_of_any hcopies
  obtain ⟨shaped', -, hshaped', -, -, hiff⟩ := decodeAll_stacksAgree_iff hinsns
  obtain rfl := Except.ok.inj (hshaped.symm.trans hshaped')
  refine ⟨insns, shaped, hinsns, hshaped, hiff.mpr ⟨fun _ => by decide, ?_⟩⟩
  intro op s kind hmem haction
  have hwhole := List.all_eq_true.mp hcopies _ hmem
  simp only [copiesWhole, haction, List.any_eq_true, List.isPrefixOf_iff_prefix] at hwhole
  exact hwhole

/-- Stores what is on the stack and returns; a handler starts at its entry. -/
def storeThrown : Code := #[0x4b, 0xb1]

/-- The search gives the entry the shape of the handler, where the machine begins with an empty stack. -/
theorem not_stacksAgree_storeThrown :
    ∃ insns shaped, decodeAll ⟨⟨1, 1⟩, .numbered [], "a.B"⟩ storeThrown [(0, none)] = .ok insns ∧
      shapedOps ⟨⟨1, 1⟩, .numbered [], "a.B"⟩ storeThrown [(0, none)] = .ok shaped ∧
        ¬StacksAgree ⟨⟨1, 1⟩, .numbered [], "a.B"⟩ storeThrown [(0, none)] shaped := by
  have hdecode : ((decodeAll ⟨⟨1, 1⟩, .numbered [], "a.B"⟩ storeThrown [(0, none)]).toOption.any fun _ => true) =
      true := by
    decide +kernel
  obtain ⟨insns, hinsns, -⟩ := exists_ok_of_any hdecode
  obtain ⟨shaped, -, hshaped, -⟩ := decodeAll_written hinsns
  refine ⟨insns, shaped, hinsns, hshaped, fun hagree => ?_⟩
  have hinside : 0 < storeThrown.size := by decide
  cases hagree.unique 0 [] [.one] (.entry hinside) (.handler (List.mem_singleton_self _) hinside)

end JavaLift.ClassFile
