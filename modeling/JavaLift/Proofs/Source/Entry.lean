import JavaLift.Proofs.Source.Blocks

namespace JavaLift.Source

theorem Namer.lookup_of_owner {n : Namer} {name : String} {v : Nat} (h : n.owner? name = some v) :
    n.names.lookup v = some name := by
  obtain ⟨p, hfind, rfl⟩ := Option.map_eq_some_iff.mp h
  have hp : (p.2 == name && n.nameOf p.1 == name) = true :=
    List.find?_some (p := fun p : Nat × String => p.2 == name && n.nameOf p.1 == name) hfind
  obtain ⟨other, hlookup⟩ := Option.isSome_iff_exists.mp (Assoc.isSome_lookup (List.mem_of_find?_eq_some hfind))
  have hof : n.nameOf p.1 = name := eq_of_beq (Bool.and_eq_true_iff.mp hp).2
  rw [nameOf, hlookup, Option.getD_some] at hof
  rw [hlookup, hof]

theorem Namer.owner_isSome {n : Namer} {name : String} {v : Nat} (h : n.names.lookup v = some name) :
    (n.owner? name).isSome := by
  rw [owner?, Option.isSome_map, List.find?_isSome]
  refine ⟨(v, name), Assoc.mem_of_lookup h, ?_⟩
  simp [nameOf, h]

namespace Lifted

variable {m : Lifted} {v : Nat} {name : String}

theorem entry_identifier (h : name ∈ m.entryWords) : m.Entry (m.survey.namer.identifier name) := by
  cases howner : m.survey.namer.owner? name with
  | none => exact .inr ⟨howner, h⟩
  | some v =>
      have hlookup := Namer.lookup_of_owner howner
      have hfirst := (m.survey_proper.later _ (Assoc.mem_of_lookup hlookup)).resolve_right (not_not_intro h)
      refine .inl ⟨v, isEntry_of_mem_entries (m.mem_firstNamer.mp hfirst), ?_, ?_⟩
      · rw [Named, hlookup, Option.isSome_some]
      · rw [Namer.identifier, howner, nameFor, Namer.nameOf, hlookup, Option.getD_some]

theorem exists_entryWord (hparams : m.params.length ≤ (Survey.entryNames m).2.length) (hv : m.isEntry v = true) :
    ∃ name ∈ m.entryWords, m.survey.namer.identifier name = m.nameFor v := by
  have hmem : ∃ name, (some v, name) ∈ m.entries := by
    rcases Bool.or_eq_true_iff.mp hv with hv | hv
    · exact ⟨"this", List.mem_cons.mpr (.inl (by rw [eq_of_beq hv]))⟩
    · obtain ⟨i, hi, he⟩ := List.mem_iff_getElem.mp (List.contains_iff_mem.mp hv)
      refine ⟨(Survey.entryNames m).2[i], List.mem_cons_of_mem _ ?_⟩
      rw [← he]
      exact List.mem_iff_getElem.mpr ⟨i, by simpa using ⟨hi, hi.trans_le hparams⟩, by simp⟩
  obtain ⟨other, hother⟩ := hmem
  obtain ⟨name, hname⟩ := Option.isSome_iff_exists.mp (Assoc.isSome_lookup (m.mem_firstNamer.mpr hother))
  have hentry := m.mem_firstNamer.mp (Assoc.mem_of_lookup hname)
  have hlookup : m.survey.namer.names.lookup v = some name := by
    rw [survey_eq]
    exact Survey.name_touchAll m.touched hname
  refine ⟨name, m.entries_sublist.subset (List.mem_map_of_mem hentry), ?_⟩
  obtain ⟨w, hw⟩ := Option.isSome_iff_exists.mp (Namer.owner_isSome hlookup)
  obtain rfl : w = v := m.survey_proper.eq_of_name (Namer.lookup_of_owner hw) hlookup
  rw [Namer.identifier, hw, nameFor, Namer.nameOf, hlookup, Option.getD_some]

end Lifted

structure Owned (n : Namer) (s : Scopes) : Prop where
  visible : ∀ v ∈ s.declared, ∃ j ∈ s.visible, j.var = some v
  identified : ∀ j ∈ s.visible, j = n.identifier j.name

namespace Owned

variable {n : Namer} {s : Scopes} {name : String}

theorem admits (h : Owned n s) (hname : ∀ j ∈ s.visible, j.name ≠ name) : s.Admits (.binds (n.identifier name)) := by
  refine ⟨fun v hv hmem => ?_, hname⟩
  obtain ⟨j, hj, hvar⟩ := h.visible v hmem
  have hid := h.identified j hj
  rw [hid] at hvar
  have hlookup := Namer.lookup_of_owner (hvar : n.owner? j.name = some v)
  exact hname j hj (Option.some.inj (hlookup.symm.trans (Namer.lookup_of_owner hv)))

theorem bind (h : Owned n s) : Owned n (s.after (.binds (n.identifier name))) where
  visible v hv := by
    rcases List.mem_append.mp hv with hv | hv
    · exact ⟨_, List.mem_cons_self, Option.mem_toList.mp hv⟩
    · obtain ⟨j, hj, hvar⟩ := h.visible v hv
      exact ⟨j, List.mem_cons_of_mem _ hj, hvar⟩
  identified := List.forall_mem_cons.mpr ⟨rfl, h.identified⟩

theorem params {ps : List (Ty × String)} (h : Owned n s) (hnew : ∀ p ∈ ps, ∀ j ∈ s.visible, j.name ≠ p.2)
    (hnodup : (ps.map Prod.snd).Nodup) :
    s.Scoped (paramSigns (ps.map fun p => (p.1, n.identifier p.2))) ∧
      ∃ s', s.afterAll (paramSigns (ps.map fun p => (p.1, n.identifier p.2))) = s' ∧ Owned n s' ∧
        s'.blocks = s.blocks ∧ ∀ j, j ∈ s'.bound ↔ j ∈ s.bound ∨ ∃ p ∈ ps, j = n.identifier p.2 := by
  induction ps generalizing s with
  | nil => exact ⟨trivial, s, rfl, h, rfl, by simp⟩
  | cons p ps ih =>
      obtain ⟨hp, hrest⟩ := List.forall_mem_cons.mp hnew
      rw [List.map_cons, List.nodup_cons] at hnodup
      have hnext : ∀ q ∈ ps, ∀ j ∈ (s.after (.binds (n.identifier p.2))).visible, j.name ≠ q.2 := by
        intro q hq
        refine List.forall_mem_cons.mpr ⟨?_, hrest q hq⟩
        exact fun (he : p.2 = q.2) => hnodup.1 (he ▸ List.mem_map_of_mem hq)
      obtain ⟨hscoped, s', hafter, howned, hblocks, hbound⟩ := ih h.bind hnext hnodup.2
      rw [List.map_cons, paramSigns]
      refine ⟨⟨trivial, h.admits hp, ?_⟩, s', ?_, howned, hblocks, fun j => ?_⟩
      · split_ifs
        · exact hscoped
        · exact ⟨trivial, hscoped⟩
      · rw [← hafter]
        split_ifs <;> rfl
      · rw [hbound]
        change (j ∈ n.identifier p.2 :: s.bound ∨ _) ↔ _
        rw [List.mem_cons, List.exists_mem_cons_iff, or_assoc, or_left_comm]

end Owned

namespace Lifted

variable (m : Lifted) (style : Style)

theorem length_takeAll (n : Namer) (types : List Ty) : (n.takeAll types).2.length = types.length := by
  induction types generalizing n with
  | nil => rfl
  | cons t types ih => exact congrArg Nat.succ (ih _)

theorem length_entryNames : (Survey.entryNames m).2.length = m.signature.params.length := length_takeAll _ _

theorem owned_receiver : Owned m.survey.namer m.receiverScope where
  visible _ hv := ⟨_, List.mem_cons_self, Option.mem_toList.mp hv⟩
  identified := List.forall_mem_singleton.mpr rfl

theorem scoped_signature (hinit : m.signature.isClassInitializer = true → m.signature.params = []) :
    m.receiverScope.Scoped (m.headSigns style) ∧
      ∃ s, m.receiverScope.afterAll (m.headSigns style) = s ∧ Owned m.survey.namer s ∧
        s.blocks = m.receiverScope.blocks ∧
        ∀ j, j ∈ s.bound ↔ ∃ name ∈ (Survey.entryNames m).2, j = m.survey.namer.identifier name := by
  have hlength := m.length_entryNames
  unfold headSigns signatureSigns
  by_cases hstatic : m.signature.isClassInitializer = true
  · rw [if_pos hstatic]
    have hnone : (Survey.entryNames m).2 = [] := by
      rw [← List.length_eq_zero_iff, hlength, hinit hstatic, List.length_nil]
    refine ⟨⟨trivial, trivial, trivial⟩, _, rfl, m.owned_receiver, rfl, fun j => ?_⟩
    simp [hnone, receiverScope]
  · rw [if_neg hstatic]
    have hsnd : (m.signature.params.zip (Survey.entryNames m).2).map Prod.snd = (Survey.entryNames m).2 :=
      List.map_snd_zip hlength.le
    have hnodup := m.entryWords_nodup
    rw [List.nodup_cons] at hnodup
    have hnew : ∀ p ∈ m.signature.params.zip (Survey.entryNames m).2,
        ∀ j ∈ m.receiverScope.visible, j.name ≠ p.2 := by
      intro p hp
      refine List.forall_mem_singleton.mpr fun (he : "this" = p.2) => hnodup.1 ?_
      rw [he]
      exact (List.of_mem_zip hp).2
    obtain ⟨hscoped, s, hafter, howned, hblocks, hbound⟩ := m.owned_receiver.params hnew (by rw [hsnd]; exact hnodup.2)
    refine ⟨?_, s, ?_, howned, hblocks, fun j => ?_⟩
    · rw [Scopes.scoped_append, Scopes.scoped_append]
      exact ⟨⟨⟨trivial, trivial, trivial⟩, hscoped⟩, trivial, trivial⟩
    · rw [Scopes.afterAll_append, Scopes.afterAll_append]
      exact hafter
    · conv_rhs => rw [← hsnd]
      simp only [hbound, receiverScope, List.not_mem_nil, false_or, List.mem_map]
      constructor
      · rintro ⟨p, hp, rfl⟩
        exact ⟨p.2, ⟨p, hp, rfl⟩, rfl⟩
      · rintro ⟨-, ⟨p, hp, rfl⟩, rfl⟩
        exact ⟨p, hp, rfl⟩

/-- Up to the brace that opens the body, the text binds the names of the entry. -/
theorem scoped_head (hparams : m.params.length = m.signature.params.length)
    (hinit : m.signature.isClassInitializer = true → m.signature.params = []) :
    m.receiverScope.Scoped (m.headSigns style ++ [.text " ", .opens]) ∧
      ∃ s, m.receiverScope.afterAll (m.headSigns style ++ [.text " ", .opens]) = s ∧ s.bound = [] ∧
        Fit m [] [] s.blocks ∧ ∀ v ∈ s.declared, m.isEntry v = true := by
  obtain ⟨hscoped, s, hafter, howned, hblocks, hbound⟩ := m.scoped_signature style hinit
  have hthis : s.blocks.flatten = [m.survey.namer.identifier "this"] := by rw [hblocks]; rfl
  have hmem (j : Identifier) : j ∈ s.visible ↔ ∃ name ∈ m.entryWords, j = m.survey.namer.identifier name := by
    rw [Scopes.visible, List.mem_append, hbound, hthis, List.mem_singleton, entryWords, List.exists_mem_cons_iff, or_comm]
  have hentry : ∀ j ∈ s.visible, m.Entry j := fun j hj => by
    obtain ⟨name, hname, rfl⟩ := (hmem j).mp hj
    exact entry_identifier hname
  refine ⟨?_, _, rfl, ?_, ?_, ?_⟩
  · rw [Scopes.scoped_append]
    exact ⟨hscoped, trivial, trivial, trivial⟩
  · rw [Scopes.afterAll_append]
    rfl
  · rw [Scopes.afterAll_append, hafter]
    refine .entry (fun j hj => .inl (hentry j hj)) fun v hv => ?_
    obtain ⟨name, hname, he⟩ := exists_entryWord (hparams.le.trans m.length_entryNames.ge) hv
    exact (hmem _).mpr ⟨name, hname, he.symm⟩
  · rw [Scopes.afterAll_append, hafter]
    intro v hv
    obtain ⟨j, hj, hvar⟩ := howned.visible v hv
    rcases hentry j hj with ⟨w, hw, -, rfl⟩ | ⟨hnone, -⟩
    · exact Option.some.inj hvar ▸ hw
    · cases hnone.symm.trans hvar

end Lifted

end JavaLift.Source
