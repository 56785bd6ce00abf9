import JavaLift.Proofs.Source.Scoping

namespace JavaLift.Source

def Touch.var? : Touch → Option Nat
  | .read v | .assign v | .clause (.var v) => some v
  | .clause (.block ..) | .enter _ | .leave => none

namespace Survey

variable {m : Lifted} {s : Survey} {t : Touch} {ts : List Touch} {v w b : Nat} {type : Ty} {o : Occurrences}
  {first : List (Nat × String)} {words : List String} {name : String}

theorem namer_touch (s : Survey) (t : Touch) :
    (∃ v, t.var? = some v ∧ (s.touch m t).namer = s.namer.ensure v (m.typeOf v)) ∨
      (∃ b type, t = .clause (.block b type) ∧ (s.touch m t).namer = s.namer.ensureCaught b type) ∨
      t.var? = none ∧ (s.touch m t).namer = s.namer := by
  have hoccur (v : Nat) (a : Bool) : (s.occur m v a).namer = s.namer.ensure v (m.typeOf v) := by
    change (s.note m v a).namer.ensure v _ = _
    rw [namer_note]
  cases t with
  | read v => exact .inl ⟨v, rfl, hoccur v false⟩
  | assign v => exact .inl ⟨v, rfl, hoccur v true⟩
  | clause c =>
      cases c with
      | var v => exact .inl ⟨v, rfl, rfl⟩
      | block b type => exact .inr (.inl ⟨b, type, rfl, rfl⟩)
  | enter | leave => exact .inr (.inr ⟨rfl, rfl⟩)

theorem proper_touch (h : s.namer.Proper first words) (t : Touch) : (s.touch m t).namer.Proper first words := by
  rcases s.namer_touch (m := m) t with ⟨v, -, hn⟩ | ⟨b, type, -, hn⟩ | ⟨-, hn⟩
  · rw [hn]
    exact h.ensure v _
  · rw [hn]
    exact h.ensureCaught b type
  · rwa [hn]

theorem proper_touchAll (ts : List Touch) (h : s.namer.Proper first words) :
    (s.touchAll m ts).namer.Proper first words := by
  induction ts generalizing s with
  | nil => exact h
  | cons t ts ih => exact ih (proper_touch h t)

theorem name_touch (h : s.namer.names.lookup v = some name) (t : Touch) :
    (s.touch m t).namer.names.lookup v = some name := by
  rcases s.namer_touch (m := m) t with ⟨w, -, hn⟩ | ⟨b, type, -, hn⟩ | ⟨-, hn⟩
  · rw [hn]
    exact Namer.lookup_ensure_of _ h
  · rwa [hn, Namer.names_ensureCaught]
  · rwa [hn]

theorem name_touchAll (ts : List Touch) (h : s.namer.names.lookup v = some name) :
    (s.touchAll m ts).namer.names.lookup v = some name := by
  induction ts generalizing s with
  | nil => exact h
  | cons t ts ih => exact ih (name_touch h t)

/-- Every variable that is touched has a name. -/
theorem named_touchAll (ht : t ∈ ts) (hv : t.var? = some v) : ((s.touchAll m ts).namer.names.lookup v).isSome := by
  induction ts generalizing s with
  | nil => cases ht
  | cons u ts ih =>
      rcases List.mem_cons.mp ht with rfl | ht
      · have hnamed : ((s.touch m t).namer.names.lookup v).isSome := by
          rcases s.namer_touch (m := m) t with ⟨w, hw, hn⟩ | ⟨b, type, rfl, -⟩ | ⟨hnone, -⟩
          · obtain rfl : w = v := Option.some.inj (hw.symm.trans hv)
            rw [hn]
            exact Namer.lookup_ensure _ _ _
          · cases hv
          · cases hnone.symm.trans hv
        obtain ⟨name, hname⟩ := Option.isSome_iff_exists.mp hnamed
        rw [touchAll_cons, name_touchAll ts hname, Option.isSome_some]
      · exact ih ht

theorem caughtName_touchAll_of (ts : List Touch) (h : s.namer.caught.lookup b = some name) :
    (s.touchAll m ts).namer.caught.lookup b = some name := by
  induction ts generalizing s with
  | nil => exact h
  | cons t ts ih =>
      refine ih ?_
      rcases s.namer_touch (m := m) t with ⟨w, -, hn⟩ | ⟨c, type, -, hn⟩ | ⟨-, hn⟩
      · rwa [hn, Namer.caught_ensure]
      · rw [hn]
        exact Namer.lookup_ensureCaught_of _ h
      · rwa [hn]

theorem caughtName_touchAll (h : .clause (.block b type) ∈ ts) :
    ((s.touchAll m ts).namer.caught.lookup b).isSome := by
  induction ts generalizing s with
  | nil => cases h
  | cons t ts ih =>
      rcases List.mem_cons.mp h with rfl | h
      · obtain ⟨name, hname⟩ := Option.isSome_iff_exists.mp (Namer.lookup_ensureCaught s.namer b type)
        rw [touchAll_cons, caughtName_touchAll_of ts hname, Option.isSome_some]
      · exact ih h

theorem scopes_touchAll (s : Survey) (ts : List Touch) :
    (s.touchAll m ts).scopes = (around s.scopes.reverse ts).reverse := by
  induction ts generalizing s with
  | nil => simp [around]
  | cons t ts ih =>
      rw [touchAll_cons, ih]
      cases t with
      | read v | assign v => simp [around, touch]
      | clause c => cases c <;> rfl
      | enter id => simp [around, touch]
      | leave => simp [around, touch, List.tail_reverse]

theorem mem_caught_touchAll : v ∈ (s.touchAll m ts).caught ↔ v ∈ s.caught ∨ v ∈ caughtVars ts := by
  induction ts generalizing s with
  | nil => simp [caughtVars]
  | cons t ts ih =>
      rw [touchAll_cons, ih]
      cases t with
      | read w | assign w => simp [touch, caughtVars]
      | clause c => cases c <;> simp [touch, caughtVars, or_assoc, or_left_comm]
      | enter | leave => simp [touch, caughtVars]

theorem lookup_touch_isSome (h : ((s.touch m t).occurrences.lookup w).isSome) :
    (s.occurrences.lookup w).isSome ∨ s.Notes m w ∧ (t = .read w ∨ t = .assign w) := by
  have hoccur (v : Nat) (a : Bool) (h : ((s.occur m v a).occurrences.lookup w).isSome) :
      (s.occurrences.lookup w).isSome ∨ s.Notes m w ∧ v = w := by
    by_cases hw : w = v
    · subst hw
      by_cases hnotes : s.Notes m w
      · exact .inr ⟨hnotes, rfl⟩
      · left
        rwa [occur, note_of_not hnotes] at h
    · left
      rwa [lookup_occur_of_ne hw] at h
  cases t with
  | read v => exact (hoccur v false h).imp_right (And.imp_right fun he => .inl (congrArg Touch.read he))
  | assign v => exact (hoccur v true h).imp_right (And.imp_right fun he => .inr (congrArg Touch.assign he))
  | clause c => cases c <;> exact .inl h
  | enter | leave => exact .inl h

/-- Where exceptions stay in their handlers, only variables that hold neither an argument nor an exception occur. -/
theorem apart_touchAll {caught : List Nat} {next : Option CatchKey} {inside : List (Option CatchKey)}
    (hconf : Confined caught next inside ts)
    (hopen : ∀ v, some (.var v) ∈ inside ∨ next = some (.var v) → v ∈ s.caught)
    (h : ∀ v, (s.occurrences.lookup v).isSome → m.isEntry v = false ∧ v ∉ caught) :
    ∀ v, ((s.touchAll m ts).occurrences.lookup v).isSome → m.isEntry v = false ∧ v ∉ caught := by
  -- An exception that may be read here has been caught in the survey: this carries the induction.
  induction ts generalizing s next inside with
  | nil => exact h
  | cons t ts ih =>
      have hnew (hread : ∀ v, t = .read v ∨ t = .assign v → v ∈ caught → some (.var v) ∈ inside) :
          ∀ v, ((s.touch m t).occurrences.lookup v).isSome → m.isEntry v = false ∧ v ∉ caught := by
        intro v hv
        rcases lookup_touch_isSome hv with hv | ⟨hnotes, ht⟩
        · exact h v hv
        · exact ⟨hnotes.1, fun hmem => hnotes.2 (hopen v (.inl (hread v ht hmem)))⟩
      cases t with
      | read w | assign w =>
          refine ih hconf.2 (fun v hv => ?_) (hnew ?_)
          · rw [touch, caught_occur]
            exact hopen v hv
          · rintro v (he | he) hmem <;> cases he
            exact hconf.1 hmem
      | clause c =>
          refine ih hconf.2 (fun v hv => ?_) (hnew (by simp))
          cases c with
          | var w =>
              rcases hv with hv | hv
              · exact List.mem_cons_of_mem _ (hopen v (.inl hv))
              · cases hv
                exact List.mem_cons_self
          | block b type => exact hopen v (hv.imp_right fun he => by cases he)
      | enter j =>
          refine ih (s := s.touch m (.enter j)) hconf (fun v hv => ?_) (hnew (by simp))
          rcases hv with hv | hv
          · rcases List.mem_cons.mp hv with hv | hv
            · exact hopen v (.inr hv.symm)
            · exact hopen v (.inl hv)
          · cases hv
      | leave =>
          exact ih (s := s.touch m .leave) hconf (fun v hv => hopen v (hv.imp_left List.mem_of_mem_tail)) (hnew (by simp))

theorem nodup_touchAll (ts : List Touch) (h : (s.occurrences.map Prod.fst).Nodup) :
    ((s.touchAll m ts).occurrences.map Prod.fst).Nodup := by
  induction ts generalizing s with
  | nil => exact h
  | cons t ts ih =>
      refine ih ?_
      have hoccur (v : Nat) (a : Bool) : ((s.occur m v a).occurrences.map Prod.fst).Nodup := by
        change ((s.note m v a).occurrences.map Prod.fst).Nodup
        unfold note
        split_ifs
        · exact h
        · split
          · simpa [Function.comp_def] using h
          · rename_i hnone
            rw [List.map_append, List.nodup_append]
            refine ⟨h, List.nodup_singleton _, fun w hw u hu => ?_⟩
            cases List.mem_singleton.mp hu
            rintro rfl
            obtain ⟨p, hp, rfl⟩ := List.mem_map.mp hw
            exact absurd (List.lookup_eq_none_iff.mp hnone p hp) (by simp)
      cases t with
      | read v => exact hoccur v false
      | assign v => exact hoccur v true
      | clause c => cases c <;> exact h
      | enter | leave => exact h

theorem touched_of_lookup (h : ((s.touchAll m ts).occurrences.lookup v).isSome) :
    (s.occurrences.lookup v).isSome ∨ .read v ∈ ts ∨ .assign v ∈ ts := by
  induction ts generalizing s with
  | nil => exact .inl h
  | cons t ts ih =>
      rcases ih h with h | h
      · rcases lookup_touch_isSome h with h | ⟨-, rfl | rfl⟩
        · exact .inl h
        · exact .inr (.inl List.mem_cons_self)
        · exact .inr (.inr List.mem_cons_self)
      · exact .inr (h.imp (List.mem_cons_of_mem _) (List.mem_cons_of_mem _))

end Survey

namespace Lifted

variable {m : Lifted} {v id : Nat} {o : Occurrences}

theorem survey_eq (m : Lifted) : m.survey = (Survey.first m).touchAll m m.touched := Survey.of_eq m _

def entryWords (m : Lifted) : List String := "this" :: (Survey.entryNames m).2

theorem survey_proper (m : Lifted) : m.survey.namer.Proper m.firstNamer.names m.entryWords :=
  m.survey_eq ▸ Survey.proper_touchAll m.touched m.firstNamer_proper

theorem named_of_mem {t : Touch} (h : t ∈ m.touched) (hv : t.var? = some v) :
    (m.survey.namer.names.lookup v).isSome :=
  m.survey_eq ▸ Survey.named_touchAll h hv

theorem caughtName_of_mem {b : Nat} {type : Ty} (h : .clause (.block b type) ∈ m.touched) :
    (m.survey.namer.caught.lookup b).isSome :=
  m.survey_eq ▸ Survey.caughtName_touchAll h

theorem nodup_occurrences (m : Lifted) : (m.survey.occurrences.map Prod.fst).Nodup :=
  m.survey_eq ▸ Survey.nodup_touchAll m.touched List.nodup_nil

theorem mem_declarations {p : Declaration} :
    (v, p) ∈ m.survey.declarations ↔ ∃ o, m.survey.occurrences.lookup v = some o ∧ o.declaration = p := by
  rw [Survey.declarations, List.mem_mergeSort, List.mem_map]
  constructor
  · rintro ⟨⟨w, o⟩, hmem, he⟩
    cases he
    exact ⟨o, (Assoc.lookup_eq_some m.nodup_occurrences).mpr hmem, rfl⟩
  · rintro ⟨o, ho, rfl⟩
    exact ⟨(v, o), Assoc.mem_of_lookup ho, rfl⟩

theorem nodup_declarations (m : Lifted) : (m.survey.declarations.map Prod.fst).Nodup := by
  have hperm := (List.mergeSort_perm (m.survey.occurrences.map fun x => (x.1, x.2.declaration))
    fun a b => a.1 ≤ b.1).map Prod.fst
  refine hperm.nodup_iff.mpr ?_
  simpa [Function.comp_def] using m.nodup_occurrences

theorem lookup_declarations {p : Declaration} :
    m.survey.declarations.lookup v = some p ↔ ∃ o, m.survey.occurrences.lookup v = some o ∧ o.declaration = p := by
  rw [Assoc.lookup_eq_some m.nodup_declarations, mem_declarations]

theorem touched_of_planned (h : (m.survey.occurrences.lookup v).isSome) :
    .read v ∈ m.touched ∨ .assign v ∈ m.touched := by
  rw [survey_eq] at h
  exact (Survey.touched_of_lookup h).resolve_left (by simp [Survey.first])

theorem named_of_planned (h : (m.survey.occurrences.lookup v).isSome) : (m.survey.namer.names.lookup v).isSome :=
  (touched_of_planned h).elim (named_of_mem · rfl) (named_of_mem · rfl)

namespace Clear

/-- A variable that is to be declared somewhere holds neither an argument nor an exception. -/
theorem apart_of_planned (h : m.Clear) (hv : (m.survey.occurrences.lookup v).isSome) :
    m.isEntry v = false ∧ v ∉ caughtVars m.touched := by
  rw [survey_eq] at hv
  exact Survey.apart_touchAll h.confined (fun v hv => by simp at hv) (fun v hv => by simp [Survey.first] at hv) v hv

theorem assignedIn (h : m.Clear) (ho : m.survey.occurrences.lookup v = some o) (hid : id ∈ o.shared) :
    AssignedIn id [] m.touched := by
  have hplanned : (m.survey.occurrences.lookup v).isSome := by rw [ho, Option.isSome_some]
  obtain ⟨hentry, hcaught⟩ := h.apart_of_planned hplanned
  have hassign : .assign v ∈ m.touched := by
    rcases touched_of_planned hplanned with hread | hassign
    · have hassign := (h.assigned v (mem_readVars hread)).resolve_left (by simp [hentry])
      exact mem_assignedVars (hassign.resolve_left hcaught)
    · exact hassign
  obtain ⟨before, rest, hsplit⟩ := List.append_of_mem hassign
  have hnotes : ((Survey.first m).touchAll m before).Notes m v := by
    refine ⟨hentry, fun hmem => hcaught ?_⟩
    rw [hsplit, caughtVars_append, List.mem_append]
    exact .inl ((Survey.mem_caught_touchAll.mp hmem).resolve_left List.not_mem_nil)
  obtain ⟨o', ho', hshared, -⟩ := Survey.noted (a := true) hnotes rest
  rw [survey_eq, hsplit, Survey.touchAll_append] at ho
  obtain rfl : o' = o := Option.some.inj (ho'.symm.trans ho)
  have hopen := hshared.subset hid
  rw [Survey.scopes_touchAll, List.mem_reverse] at hopen
  rw [hsplit, assignedIn_append]
  exact .inr (.inl hopen)

theorem touches_written (h : m.Clear) : touches m.writtenItems = m.touched := by
  refine m.touches_same fun id hpos hdecls => ?_
  obtain ⟨⟨v, p⟩, hmem, hp⟩ := List.any_eq_true.mp hdecls
  obtain ⟨o, ho, rfl⟩ := mem_declarations.mp hmem
  have hplace : o.declaration = .scope id := eq_of_beq hp
  refine h.assignedIn ho ?_
  unfold Occurrences.declaration at hplace
  split_ifs at hplace
  cases hshared : o.shared.getLast? with
  | none =>
      rw [hshared] at hplace
      cases hplace
      exact absurd hpos (Nat.lt_irrefl 0)
  | some last =>
      rw [hshared] at hplace
      cases hplace
      exact List.mem_of_getLast? hshared

end Clear

end Lifted

end JavaLift.Source
