import JavaLift.Proofs.ClassFile.StackMachine
import JavaLift.Proofs.Lookup

namespace JavaLift.ClassFile

variable {c : Context} {ops : Array RawOp} {shapes known : Array (Option Shape)} {r : Reached} {t : Shape} {i : Nat}
  {handlers handlers' : Handlers}

/-- The search has given no shape but the known ones, and has one wherever it still has to go on. -/
structure Reached.Within (ops : Array RawOp) (known : Array (Option Shape)) (r : Reached) : Prop where
  size : r.shapes.size = ops.size
  known : ∀ i s, shapeAt r.shapes i = some s → shapeAt known i = some s
  shaped : ∀ i ∈ r.work, ∃ s, shapeAt r.shapes i = some s

theorem Reached.Within.visit (h : r.Within ops known) (hi : i < ops.size) (ht : shapeAt known i = some t) :
    ∃ r', r.visit ops t i = .ok r' ∧ r'.Within ops known := by
  have hi' : i < r.shapes.size := h.size ▸ hi
  unfold Reached.visit
  split
  · rename_i s hs
    have heq : s = t := Option.some.inj ((h.known i s (Option.join_eq_some_iff.mpr hs)).symm.trans ht)
    exact ⟨r, if_pos heq, h⟩
  · refine ⟨_, rfl, Array.size_setIfInBounds.trans h.size, fun j s hs => ?_, fun j hj => ?_⟩
    · rw [shapeAt_setIfInBounds hi'] at hs
      split_ifs at hs with hij
      · cases hs
        exact hij ▸ ht
      · exact h.known j s hs
    · simp only [shapeAt_setIfInBounds hi']
      split_ifs with hij
      · exact ⟨t, rfl⟩
      · exact h.shaped j ((List.mem_cons.mp hj).resolve_left (Ne.symm hij))

theorem Reached.Within.visits {next : List Nat} (h : r.Within ops known)
    (hnext : ∀ j ∈ next, j < ops.size ∧ shapeAt known j = some t) :
    ∃ r', next.foldlM (Reached.visit ops t) r = .ok r' ∧ r'.Within ops known := by
  induction next generalizing r with
  | nil => exact ⟨r, rfl, h⟩
  | cons j next ih =>
      rw [List.forall_mem_cons] at hnext
      obtain ⟨r₁, hvisit, h₁⟩ := h.visit hnext.1.1 hnext.1.2
      obtain ⟨r₂, hvisits, h₂⟩ := ih h₁ hnext.2
      refine ⟨r₂, ?_, h₂⟩
      rw [List.foldlM_cons]
      exact bind_eq_ok.mpr ⟨r₁, hvisit, hvisits⟩

section

variable (hsettled : ∀ i s, shapeAt known i = some s → Settled c ops known i s)
include hsettled

theorem Reached.Within.advance {rest : List Nat} (h : Reached.Within ops known ⟨shapes, i :: rest⟩) :
    ∃ r', Reached.advance c ops ⟨shapes, rest⟩ i = .ok r' ∧ r'.Within ops known := by
  obtain ⟨s, hs⟩ := h.shaped i List.mem_cons_self
  obtain ⟨next, t, ⟨op, e, hop, hstep, hsucc⟩, hnext⟩ := hsettled i s (h.known i s hs)
  have hrest : Reached.Within ops known ⟨shapes, rest⟩ :=
    ⟨h.size, h.known, fun j hj => h.shaped j (List.mem_cons_of_mem _ hj)⟩
  obtain ⟨r', hvisits, h'⟩ := hrest.visits fun j hj => ⟨lt_size_of_successors hsucc j hj, hnext j hj⟩
  refine ⟨r', ?_, h'⟩
  have hshape : shapes[i]?.join = some s := hs
  simp only [Reached.advance, hop, hshape, Option.getD_some]
  exact bind_eq_ok.mpr ⟨(e, t), hstep, bind_eq_ok.mpr ⟨next, hsucc, hvisits⟩⟩

theorem Reached.Within.close (rounds : Nat) (h : r.Within ops known) :
    ∃ r', r.close c ops rounds = .ok r' ∧ r'.Within ops known := by
  induction rounds generalizing r with
  | zero => exact ⟨r, rfl, h⟩
  | succ rounds ih =>
      obtain ⟨shapes, work⟩ := r
      cases work with
      | nil => exact ⟨_, rfl, h⟩
      | cons i rest =>
          obtain ⟨r₁, hadvance, h₁⟩ := h.advance hsettled
          obtain ⟨r₂, hclose, h₂⟩ := ih h₁
          refine ⟨r₂, ?_, h₂⟩
          simp only [Reached.close, hadvance]
          exact hclose

end

theorem exists_indexOf {op : RawOp} (hop : ops[i]? = some op) (source : Nat) :
    ∃ j, indexOf ops op.offset source = .ok j := by
  unfold indexOf
  cases hfind : ops.findIdx? fun x => x.offset == op.offset with
  | some j => exact ⟨j, rfl⟩
  | none =>
      have hne := Array.findIdx?_eq_none_iff.mp hfind op (Array.mem_of_getElem? hop)
      simp at hne

theorem exists_start (h : ∀ target ∈ handlers.map Prod.fst, ∃ (i : Nat) (op : RawOp), ops[i]? = some op ∧ op.offset = target) :
    ∃ r, Reached.start ops handlers = .ok r := by
  unfold Reached.start
  generalize Reached.mk _ _ = r
  induction handlers generalizing r with
  | nil => exact ⟨r, rfl⟩
  | cons handler handlers ih =>
      rw [List.map_cons, List.forall_mem_cons] at h
      obtain ⟨⟨i, op, hop, hoffset⟩, hrest⟩ := h
      obtain ⟨j, hj⟩ := exists_indexOf hop handler.1
      obtain ⟨r', hr'⟩ := ih hrest ⟨r.shapes.setIfInBounds j (some [.one]), j :: r.work⟩
      refine ⟨r', ?_⟩
      rw [List.foldlM_cons]
      exact bind_eq_ok.mpr ⟨_, bind_eq_ok.mpr ⟨j, hoffset ▸ hj, rfl⟩, hr'⟩

section

variable (hoffsets : ∀ (i j : Nat) (op op' : RawOp), ops[i]? = some op → ops[j]? = some op' →
  op.offset = op'.offset → i = j)
include hoffsets

/-- A search that begins at the same handlers gives no other shapes. -/
theorem shapesOf_within (hops : 0 < ops.size) (hkeys : ∀ t, t ∈ handlers'.map Prod.fst ↔ t ∈ handlers.map Prod.fst)
    (h : shapesOf c ops handlers = .ok shapes) :
    ∃ shapes', shapesOf c ops handlers' = .ok shapes' ∧ shapes'.size = ops.size ∧
      ∀ i s, shapeAt shapes' i = some s → shapeAt shapes i = some s := by
  obtain ⟨-, hsettled, hgiven, hentry⟩ := shapesOf_settled (P := fun _ _ => True) hops (fun _ _ _ => trivial)
    (fun _ _ _ _ _ _ _ _ => trivial) h
  obtain ⟨start, hstart⟩ : ∃ r, Reached.start ops handlers' = .ok r := exists_start fun target htarget => by
    obtain ⟨i, op, hop, hoffset, -⟩ := hgiven target ((hkeys target).mp htarget)
    exact ⟨i, op, hop, hoffset⟩
  have hseeded := seeds_seeded (by exact Array.size_setIfInBounds.trans Array.size_replicate) hstart
  have hwithin : start.Within ops shapes := by
    refine ⟨hseeded.size.trans (Array.size_setIfInBounds.trans Array.size_replicate), fun i s hs => ?_, fun i hi => ?_⟩
    · rcases hseeded.fresh i s hs with hold | ⟨-, rfl, op, hop, hmem⟩
      · rw [shapeAt_entry hops] at hold
        split_ifs at hold with hi
        · cases hold
          subst hi
          refine hentry fun op hop hmem => ?_
          -- A handler at the entry has put the exception on its stack.
          obtain ⟨i, op', hop', hoffset, hone⟩ := hseeded.given op.offset ((hkeys _).mpr hmem)
          obtain rfl := hoffsets i 0 op' op hop' hop hoffset
          rw [hs] at hone
          cases hone
      · obtain ⟨j, op', hop', hoffset, hone⟩ := hgiven op.offset ((hkeys _).mp hmem)
        rwa [hoffsets i j op op' hop hop' hoffset.symm]
    · rcases hseeded.shaped i hi with hi | hi
      · obtain rfl := List.mem_singleton.mp hi
        rcases hseeded.keeps 0 [] (by rw [shapeAt_entry hops, if_pos rfl]) with hs | ⟨hs, -⟩
        · exact ⟨_, hs⟩
        · exact ⟨_, hs⟩
      · exact ⟨_, hi⟩
  obtain ⟨r, hclose, hr⟩ := hwithin.close (fun i s hs => (hsettled i s hs).1) (ops.size + handlers'.length + 1)
  exact ⟨r.shapes, bind_eq_ok.mpr ⟨start, hstart, bind_eq_ok.mpr ⟨r, hclose, rfl⟩⟩, hr.size, hr.known⟩

theorem shapesOf_eq (hops : 0 < ops.size) (hkeys : ∀ t, t ∈ handlers'.map Prod.fst ↔ t ∈ handlers.map Prod.fst)
    (h : shapesOf c ops handlers = .ok shapes) : shapesOf c ops handlers' = .ok shapes := by
  obtain ⟨shapes', h', hsize', hsub⟩ := shapesOf_within hoffsets hops hkeys h
  obtain ⟨shapes'', h'', hsize, hsub'⟩ := shapesOf_within hoffsets hops (fun t => (hkeys t).symm) h'
  cases h.symm.trans h''
  refine h'.trans (congrArg Except.ok (Array.ext (hsize'.trans hsize.symm) fun i hi hi' => ?_))
  have hshape : shapeAt shapes' i = shapeAt shapes i :=
    Option.ext fun s => ⟨hsub i s, hsub' i s⟩
  simpa [shapeAt, hi, hi'] using hshape

end

variable {code : Code} {insns : List Insn}

theorem offset_nodup {pc : Nat} {ops : List RawOp} (h : code.readFrom pc = .ok ops) : (ops.map (·.offset)).Nodup := by
  obtain ⟨-, -, hchain, -⟩ := readFrom_ok h
  have hlt : ops.IsChain (fun op op' => op.offset < op'.offset) := hchain.imp fun a b hab => by omega
  exact List.pairwise_map.mpr (hlt.pairwise.imp Nat.ne_of_lt)

/-- The parts of a decoded method are written out for other handlers as well. -/
theorem exists_parts {shaped : List (RawOp × Option Shape)} {parts : List (List Insn)}
    (handlers' : Handlers) (hparts : shaped.mapM (fun (op, shape) => match shape with
      | some shape => writeOut c handlers op shape
      | none => .ok []) = .ok parts) :
    ∃ parts', shaped.mapM (fun (op, shape) => match shape with
      | some shape => writeOut c handlers' op shape
      | none => .ok []) = .ok parts' := by
  refine exists_mapM fun x hx => ?_
  obtain ⟨op, shape⟩ := x
  obtain ⟨part, -, hpart⟩ := exists_of_mem_of_mapM hparts hx
  cases shape with
  | none => exact ⟨[], rfl⟩
  | some s =>
      obtain ⟨⟨e, s'⟩, hstep, -⟩ := bind_eq_ok.mp hpart
      exact ⟨_, bind_eq_ok.mpr ⟨(e, s'), hstep, rfl⟩⟩

/-- Code can be decoded with its handlers in any order. -/
theorem exists_decodeAll (hkeys : ∀ t, t ∈ handlers'.map Prod.fst ↔ t ∈ handlers.map Prod.fst)
    (h : decodeAll c code handlers = .ok insns) : ∃ insns', decodeAll c code handlers' = .ok insns' := by
  obtain ⟨n, hn, h⟩ := bind_eq_ok.mp h
  obtain ⟨ops, hops, h⟩ := bind_eq_ok.mp h
  by_cases hempty : ops.isEmpty = true
  · exact ⟨[], bind_eq_ok.mpr ⟨n, hn, bind_eq_ok.mpr ⟨ops, hops, if_pos hempty⟩⟩⟩
  rw [if_neg hempty] at h
  obtain ⟨shapes, hshapes, h⟩ := bind_eq_ok.mp h
  obtain ⟨parts, hparts, -⟩ := bind_eq_ok.mp h
  have hpos : 0 < ops.toArray.size := by
    rw [List.size_toArray]
    exact List.length_pos_iff.mpr (by simpa using hempty)
  have hshapes' : shapesOf c ops.toArray handlers' = .ok shapes := shapesOf_eq (fun i j op op' hi hj hoffset =>
    index_eq_of_offset hops (by simpa using hi) (by simpa using hj) hoffset) hpos hkeys hshapes
  obtain ⟨parts', hparts'⟩ := exists_parts handlers' hparts
  exact ⟨parts'.flatten, bind_eq_ok.mpr ⟨n, hn, bind_eq_ok.mpr ⟨ops, hops, (if_neg hempty).trans
    (bind_eq_ok.mpr ⟨shapes, hshapes', bind_eq_ok.mpr ⟨parts', hparts', rfl⟩⟩)⟩⟩⟩

theorem find?_parts {shaped : List (RawOp × Option Shape)} {parts : List (List Insn)} {op : RawOp} {s : Shape}
    {caught : Option Ty} (hparts : shaped.Forall₂ (IsPart c handlers) parts)
    (hdistinct : (shaped.map (·.1.offset)).Nodup) (hmem : (op, some s) ∈ shaped)
    (hlookup : handlers.lookup op.offset = some caught) :
    parts.flatten.find? (fun i => i.offset == op.offset) = some (handlerEntry c op.offset caught) := by
  induction hparts with
  | nil => cases hmem
  | @cons x part shaped parts hpart hparts ih =>
      obtain ⟨op', shape⟩ := x
      rw [List.map_cons, List.nodup_cons] at hdistinct
      rw [List.flatten_cons, List.find?_append]
      rcases List.mem_cons.mp hmem with heq | hmem
      · cases heq
        obtain ⟨-, e, -, -, -, rfl⟩ := writeOut_ok hpart
        simp [hlookup, handlerEntry, Insn.of]
      · have hne : op'.offset ≠ op.offset := fun heq =>
          hdistinct.1 (List.mem_map.mpr ⟨(op, some s), hmem, heq.symm⟩)
        have hnone : part.find? (fun i => i.offset == op.offset) = none := by
          rw [List.find?_eq_none]
          intro i hi
          cases shape with
          | none =>
              cases hpart
              cases hi
          | some shape => simpa [(writeOut_offsets hpart).1 i hi] using hne
        rw [hnone, Option.none_or]
        exact ih hdistinct.2 hmem

/-- The first instruction at a handler is the one that takes the exception. -/
theorem find?_handler (h : decodeAll c code handlers = .ok insns) (hcode : 0 < code.size) {target : Nat}
    {caught : Option Ty} (hlookup : handlers.lookup target = some caught) :
    insns.find? (fun i => i.offset == target) = some (handlerEntry c target caught) := by
  obtain ⟨shaped, parts, hshaped, hparts, rfl⟩ := decodeAll_parts h
  obtain ⟨ops, hops, hshaped⟩ := bind_eq_ok.mp hshaped
  have hne := (readFrom_ok hops).2.2.2 hcode
  rw [if_neg (by simpa using hne)] at hshaped
  obtain ⟨shapes, hshapes, hshaped⟩ := bind_eq_ok.mp hshaped
  cases hshaped
  have hpos : 0 < ops.toArray.size := by simpa using List.length_pos_iff.mpr hne
  obtain ⟨hsize, -, hgiven, -⟩ := shapesOf_settled (P := fun _ _ => True) hpos (fun _ _ _ => trivial)
    (fun _ _ _ _ _ _ _ _ => trivial) hshapes
  obtain ⟨i, op, hop, rfl, hone⟩ := hgiven target (List.mem_map.mpr ⟨_, Assoc.mem_of_lookup hlookup, rfl⟩)
  have hmem : (op, some [.one]) ∈ ops.zip shapes.toList := mem_shaped.mpr ⟨i, by simpa using hop, hone⟩
  refine find?_parts hparts ?_ hmem hlookup
  have hfst : (ops.zip shapes.toList).map (·.1.offset) = ops.map (·.offset) := by
    have hlength : ops.length ≤ shapes.toList.length := by simpa using hsize.ge
    conv_rhs => rw [← List.map_fst_zip hlength, List.map_map]
    rfl
  rw [hfst]
  exact offset_nodup hops

end JavaLift.ClassFile
