import JavaLift.Typing.Inference
import JavaLift.Proofs.Insn.Tree
import Mathlib

namespace JavaLift

namespace Arg

variable {a b : Arg} {path : ArgPath} {f : Register → Register} {conditions k i : Nat} {args : List Arg}

def retype (path : ArgPath) (f : Register → Register) (p : ArgPath) (r : Register) : Register :=
  if p = path then f r else r

def onReads (change : ArgPath → Register → Register) (reads : List (ArgPath × Register)) :
    List (ArgPath × Register) :=
  reads.map fun (p, r) => (p, change p r)

theorem onReads_of_not_mem {reads : List (ArgPath × Register)} (h : path ∉ reads.map Prod.fst) :
    onReads (retype path f) reads = reads := by
  refine (List.map_congr_left fun read hread => ?_).trans (List.map_id reads)
  have hne : read.1 ≠ path := fun he => h (List.mem_map.mpr ⟨read, hread, he⟩)
  simp [retype, hne]

theorem onReads_append (change : ArgPath → Register → Register) (first second : List (ArgPath × Register)) :
    onReads change (first ++ second) = onReads change first ++ onReads change second := List.map_append

theorem onReads_below (path : ArgPath) (f : Register → Register) (s t : Slot) (hne : t ≠ s)
    (reads : List (ArgPath × Register)) :
    onReads (retype (s :: path) f) (reads.map fun (p, r) => (t :: p, r)) = reads.map fun (p, r) => (t :: p, r) := by
  simp [onReads, retype, hne]

theorem readsFrom_below {s : Slot} (hs : ∀ j, k ≤ j → Slot.ofIndex conditions j ≠ s) :
    onReads (retype (s :: path) f) (readsFrom conditions k args) = readsFrom conditions k args := by
  refine onReads_of_not_mem fun hmem => ?_
  obtain ⟨j, hj, tail, he⟩ := readsFrom_head conditions k args hmem
  exact hs j hj (List.cons.inj he).1.symm

theorem readsFrom_set (ha : args[i]? = some a) (hb : b.reads = onReads (retype path f) a.reads) :
    readsFrom conditions k (args.set i b) =
      onReads (retype (Slot.ofIndex conditions (k + i) :: path) f) (readsFrom conditions k args) := by
  induction args generalizing i k with
  | nil => cases ha
  | cons c rest ih =>
      cases i with
      | zero =>
          cases ha
          have hlater : onReads (retype (Slot.ofIndex conditions k :: path) f) (readsFrom conditions (k + 1) rest) =
              readsFrom conditions (k + 1) rest :=
            readsFrom_below fun j hj he => absurd (Slot.ofIndex_injective conditions he) (by omega)
          rw [List.set_cons_zero, readsFrom, readsFrom, hb, onReads_append, Nat.add_zero k, hlater]
          simp [onReads, retype]
      | succ i =>
          have hne : Slot.ofIndex conditions k ≠ Slot.ofIndex conditions (k + (i + 1)) := fun he =>
            absurd (Slot.ofIndex_injective conditions he) (by omega)
          have hfirst := onReads_below path f _ _ hne c.reads
          rw [List.set_cons_succ, readsFrom, readsFrom, ih ha, onReads_append, hfirst, Nat.add_right_comm, Nat.add_assoc]

/-- A register that is changed in its place is read changed, and the other reads are as before. -/
theorem reads_of_modifyAt? (h : a.modifyAt? (fun a => a.reg?.map fun r => .reg (f r)) path = some b) :
    b.reads = onReads (retype path f) a.reads := by
  induction path generalizing a b with
  | nil =>
      obtain ⟨r, hr, rfl⟩ := Option.map_eq_some_iff.mp h
      cases a with
      | reg =>
          cases hr
          simp [reads, onReads, retype]
      | lit => cases hr
      | tree => cases hr
  | cons s path ih =>
      cases a with
      | reg => cases h
      | lit => cases h
      | tree head args =>
          simp only [modifyAt?, Option.bind_eq_bind, Option.pure_def, Option.bind_eq_some_iff, Option.some.injEq] at h
          obtain ⟨i, hs, c, hc, d, hd, rfl⟩ := h
          obtain rfl := Slot.index?_inj hs (Slot.index?_ofIndex head.op.conditions i)
          rw [reads, reads, readsFrom_set hc (ih hd), Nat.zero_add]

end Arg

namespace Typing

open Arg

variable {types : Array Ty} {c : Chain} {w : Webs} {g : Graph} {i : Insn} {path : ArgPath} {v b pos : Nat}

theorem typeRegister_idem (types : Array Ty) (v : Nat) (r : Register) :
    typeRegister types v (typeRegister types v r) = typeRegister types v r := by
  simp [typeRegister]

theorem reads_typeResult (types : Array Ty) (v : Nat) (i : Insn) : (typeResult types v i).reads = i.reads := by
  have hconst (t : Ty) : readsFrom i.op.conditions 0 (typeConstant t i.args) = readsFrom i.op.conditions 0 i.args := by
    unfold typeConstant
    split
    · rename_i he
      rw [he]
      simp [readsFrom, reads]
    · rfl
  change readsFrom i.op.conditions 0 (typeResult types v i).args = readsFrom i.op.conditions 0 i.args
  unfold typeResult
  dsimp only
  split
  · exact hconst _
  · rfl

/-- A use takes its variable, and the rest of the instruction is as before. -/
theorem typeUse_spec (types : Array Ty) (v : Nat) (path : ArgPath) (i : Insn) :
    (typeUse types v path i).reads = onReads (retype path (typeRegister types v)) i.reads ∧
      (typeUse types v path i).toHead = i.toHead := by
  unfold typeUse Insn.modifyAt?
  by_cases hempty : path = []
  · subst hempty
    refine ⟨(onReads_of_not_mem fun hmem => ?_).symm, rfl⟩
    obtain ⟨j, -, tail, he⟩ := readsFrom_head i.op.conditions 0 i.args hmem
    cases he
  rw [if_neg (by simpa using hempty)]
  cases hmod : i.toArg.modifyAt? (fun a => a.reg?.map fun r => .reg (typeRegister types v r)) path with
  | none =>
      -- There is nothing to change where the path leads to no register.
      refine ⟨(onReads_of_not_mem fun hmem => ?_).symm, rfl⟩
      obtain ⟨⟨p, r⟩, hr, rfl⟩ := List.mem_map.mp hmem
      obtain ⟨b, hb⟩ := replaced_of_reads hr (.reg (typeRegister types v r))
      exact Option.some_ne_none _ ((hb.modifyAt?_eq rfl).symm.trans hmod)
  | some b =>
      have hreads := reads_of_modifyAt? hmod
      cases path with
      | nil => exact absurd rfl hempty
      | cons s path =>
          simp only [Insn.toArg, modifyAt?, Option.bind_eq_bind, Option.pure_def, Option.bind_eq_some_iff,
            Option.some.injEq] at hmod
          obtain ⟨n, -, _, -, _, -, rfl⟩ := hmod
          exact ⟨hreads, rfl⟩

def useChange (types : Array Ty) (c : Chain) (w : Webs) (id : Nat) (path : ArgPath) (r : Register) : Register :=
  ((w.useVar[id]?).join).elim r fun v => (c.uses[id]?).elim r fun u => retype u.path (typeRegister types v) path r

theorem useChange_eq {id : Nat} {u : Use} {var : Option Nat} (hu : c.uses[id]? = some u)
    (hvar : w.useVar[id]? = some var) (path : ArgPath) (r : Register) :
    useChange types c w id path r = var.elim r fun v => if path = u.path then typeRegister types v r else r := by
  simp [useChange, retype, hu, hvar]

def usesChange (types : Array Ty) (c : Chain) (w : Webs) (ids : List Nat) (path : ArgPath) (r : Register) : Register :=
  ids.foldl (fun r id => useChange types c w id path r) r

theorem typeUses_spec (types : Array Ty) (c : Chain) (w : Webs) (ids : List Nat) (i : Insn) :
    let j := ids.foldl (fun i id =>
      ((w.useVar[id]?).join).elim i fun v => (c.uses[id]?).elim i fun u => typeUse types v u.path i) i
    j.reads = onReads (usesChange types c w ids) i.reads ∧ j.toHead = i.toHead := by
  induction ids generalizing i with
  | nil => exact ⟨by simp [onReads, usesChange], rfl⟩
  | cons id ids ih =>
      set j := ((w.useVar[id]?).join).elim i fun v => (c.uses[id]?).elim i fun u => typeUse types v u.path i with hj
      have hfirst : j.reads = onReads (useChange types c w id) i.reads ∧ j.toHead = i.toHead := by
        rw [hj]
        unfold useChange
        cases (w.useVar[id]?).join with
        | none => exact ⟨by simp [onReads], rfl⟩
        | some v => cases c.uses[id]? with
          | none => exact ⟨by simp [onReads], rfl⟩
          | some u => exact typeUse_spec types v u.path i
      obtain ⟨hreads, hhead⟩ := ih j
      refine ⟨?_, hhead.trans hfirst.2⟩
      refine hreads.trans ?_
      rw [hfirst.1]
      simp [onReads, usesChange]

section

variable {ids : List Nat} {r : Register}

theorem usesChange_none (h : ∀ id ∈ ids, ∀ r, useChange types c w id path r = r) :
    usesChange types c w ids path r = r := by
  unfold usesChange
  induction ids with
  | nil => rfl
  | cons id ids ih =>
      rw [List.forall_mem_cons] at h
      rw [List.foldl_cons, h.1]
      exact ih h.2

/-- A register takes a variable if one of its uses has it and no use has another one. -/
theorem usesChange_some
    (h : ∀ id ∈ ids, (∀ r, useChange types c w id path r = r) ∨ ∀ r, useChange types c w id path r = typeRegister types v r)
    (hsome : ∃ id ∈ ids, ∀ r, useChange types c w id path r = typeRegister types v r) :
    usesChange types c w ids path r = typeRegister types v r := by
  induction ids generalizing r with
  | nil => simp at hsome
  | cons id ids ih =>
      rw [List.forall_mem_cons] at h
      obtain ⟨hid, hrest⟩ := h
      change usesChange types c w ids path (useChange types c w id path r) = _
      by_cases hlater : ∃ id ∈ ids, ∀ r, useChange types c w id path r = typeRegister types v r
      · rw [ih hrest hlater]
        rcases hid with hid | hid
        · rw [hid]
        · rw [hid, typeRegister_idem]
      · obtain ⟨k, hk, he⟩ := hsome
        rcases List.mem_cons.mp hk with rfl | hk
        · rw [he, usesChange_none]
          exact fun id hmem => (hrest id hmem).resolve_right fun he => hlater ⟨id, hmem, he⟩
        · exact absurd ⟨k, hk, he⟩ hlater

end

def usesAt (c : Chain) (b pos : Nat) : List Nat := ((c.useTable[b]?).bind (·[pos]?)).getD []

/-- An instruction reads at the same paths as before, and its registers take the variables of its uses. -/
theorem reads_typeInsn (types : Array Ty) (c : Chain) (w : Webs) (b pos : Nat) (i : Insn) :
    (typeInsn types c w b pos i).reads = onReads (usesChange types c w (usesAt c b pos)) i.reads := by
  refine (typeUses_spec types c w (usesAt c b pos) _).1.trans ?_
  cases (c.defAt? b pos).bind fun d => w.defVar[d]? with
  | none => rfl
  | some v => rw [Option.elim_some, reads_typeResult]

theorem result_typeInsn (types : Array Ty) (c : Chain) (w : Webs) (b pos : Nat) (i : Insn) :
    (typeInsn types c w b pos i).result =
      ((c.defAt? b pos).bind fun d => w.defVar[d]?).elim i.result fun v => i.result.map (typeRegister types v) := by
  refine (congrArg Head.result (typeUses_spec types c w (usesAt c b pos) _).2).trans ?_
  cases (c.defAt? b pos).bind fun d => w.defVar[d]? <;> rfl

theorem insns_writeBack (types : Array Ty) (c : Chain) (w : Webs) (g : Graph) (b pos : Nat) :
    ((writeBack types c w g).block b).insns[pos]? = ((g.block b).insns[pos]?).map (typeInsn types c w b pos) := by
  simp only [Graph.block, writeBack, Array.getElem?_mapIdx]
  cases g.blocks[b]? with
  | none => rfl
  | some block => simp

section

variable {h : Hierarchy} {items : Array Item} {useVar : Array (Option Nat)}

theorem size_foldl {α : Type} {f : Array Ty → α → Array Ty} (hf : ∀ types x, (f types x).size = types.size)
    (l : List α) (types : Array Ty) : (l.foldl f types).size = types.size := by
  induction l generalizing types with
  | nil => rfl
  | cons x l ih => exact (ih _).trans (hf types x)

theorem size_startTypes (w : Webs) (entryTypes : List Ty) : (startTypes w entryTypes).size = w.size :=
  (size_foldl (fun _ _ => Array.size_setIfInBounds) _ _).trans Array.size_replicate

theorem size_visit (item : Item) (p : Progress) : (visit h items useVar item p).types.size = p.types.size := by
  unfold visit
  dsimp only
  split <;> simp

theorem size_propagate (limit budget : Nat) (p : Progress) :
    (propagate h items useVar limit budget p).types.size = p.types.size := by
  induction budget generalizing p with
  | zero =>
      unfold propagate
      split <;> rfl
  | succ budget ih =>
      unfold propagate
      split
      · rfl
      · rename_i n rest hqueue
        rw [ih]
        cases items[n]? with
        | none => rfl
        | some item => exact size_visit item _

theorem size_demands (h : Hierarchy) (g : Graph) (c : Chain) (w : Webs) (returned : Ty) :
    (demands h g c w returned).size = w.size := by
  refine (size_foldl (fun bounds x => ?_) _ _).trans Array.size_replicate
  dsimp only
  split <;> simp

theorem size_demandAll (h : Hierarchy) (copies : List (Nat × Nat)) (rounds : Nat) (bounds : Array Ty) :
    (demandAll h copies rounds bounds).size = bounds.size := by
  have hround (bounds : Array Ty) : (demandSources h copies bounds).size = bounds.size :=
    size_foldl (fun _ _ => Array.size_modify) copies bounds
  induction rounds generalizing bounds with
  | zero => rfl
  | succ rounds ih =>
      unfold demandAll
      dsimp only
      split
      · rfl
      · rw [ih, hround]

theorem size_foldl_push {α β σ : Type} {f : Array β × σ → α → Array β × σ} (hf : ∀ s x, (f s x).1.size = s.1.size + 1)
    (l : List α) (s : Array β × σ) : (l.foldl f s).1.size = s.1.size + l.length := by
  induction l generalizing s with
  | nil => rfl
  | cons x l ih => rw [List.foldl_cons, ih, hf, List.length_cons, Nat.add_right_comm, Nat.add_assoc]

theorem size_settleAll (types bounds : Array Ty) (report : Report) :
    (settleAll types bounds report).1.size = min types.size bounds.size := by
  refine (size_foldl_push (fun s x => ?_) _ _).trans (by simp)
  exact Array.size_push _

/-- The variables of a typed method are those of its definitions, and its graph is written with their types. -/
theorem infer_spec (h : Hierarchy) (limit : Nat) (g : Graph) (c : Chain) (entryTypes : List Ty) (returned : Ty) :
    (infer h limit g c entryTypes returned).1 =
        writeBack (infer h limit g c entryTypes returned).2.types c (Webs.of c) g ∧
      (infer h limit g c entryTypes returned).2.types.size = (Webs.of c).size ∧
      (infer h limit g c entryTypes returned).2.regs = (Webs.of c).varRegs ∧
      (infer h limit g c entryTypes returned).2.entryVars = (Webs.of c).defVar.toList.take entryTypes.length := by
  refine ⟨rfl, ?_, rfl, rfl⟩
  refine (size_settleAll _ _ _).trans ?_
  rw [size_propagate, size_startTypes, size_demandAll, size_demands, min_self]

end

end Typing

end JavaLift
