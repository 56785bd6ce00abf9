import JavaLift.Proofs.Source.Scopes
import JavaLift.Proofs.Source.WellScoped

namespace JavaLift.Source

namespace Survey

variable {m : Lifted} {s : Survey} {w : Nat} {o : Occurrences} {ts : List Touch} {E : List Nat}

theorem shared_occur (v : Nat) (a : Bool) (hscopes : ∀ id ∈ s.scopes, id ∈ E)
    (hshared : ∀ w o, s.occurrences.lookup w = some o → ∀ id ∈ o.shared, id ∈ E)
    (h : (s.occur m v a).occurrences.lookup w = some o) : ∀ id ∈ o.shared, id ∈ E := by
  by_cases hnotes : s.Notes m v
  · have hlookup := (lookup_note (a := a) hnotes w).symm.trans h
    split_ifs at hlookup
    · cases Option.some.inj hlookup
      intro id hid
      cases hv : s.occurrences.lookup v with
      | none =>
          rw [hv] at hid
          exact hscopes id hid
      | some o' =>
          rw [hv] at hid
          exact hscopes id ((sharedStart_right o'.shared s.scopes).subset hid)
    · exact hshared w o hlookup
  · rw [occur, note_of_not hnotes] at h
    exact hshared w o h

theorem shared_touchAll (hscopes : ∀ id ∈ s.scopes, id ∈ E)
    (hshared : ∀ w o, s.occurrences.lookup w = some o → ∀ id ∈ o.shared, id ∈ E) (hts : ∀ id ∈ entered ts, id ∈ E)
    (h : (s.touchAll m ts).occurrences.lookup w = some o) : ∀ id ∈ o.shared, id ∈ E := by
  induction ts generalizing s with
  | nil => exact hshared w o h
  | cons t ts ih =>
      have hrest : ∀ id ∈ entered ts, id ∈ E := fun id hid =>
        hts id (by rw [← List.singleton_append, entered_append]; exact List.mem_append_right _ hid)
      cases t with
      | read v => exact ih (by simpa [touch] using hscopes) (fun w o => shared_occur v false hscopes hshared) hrest h
      | assign v => exact ih (by simpa [touch] using hscopes) (fun w o => shared_occur v true hscopes hshared) hrest h
      | clause c =>
          cases c with
          | var v => exact ih (s := s.touch m (.clause (.var v))) hscopes hshared hrest h
          | block b type => exact ih (s := s.touch m (.clause (.block b type))) hscopes hshared hrest h
      | enter id =>
          refine ih (s := s.touch m (.enter id)) (fun j hj => ?_) hshared hrest h
          rcases List.mem_append.mp hj with hj | hj
          · exact hscopes j hj
          · cases List.mem_singleton.mp hj
            exact hts id List.mem_cons_self
      | leave => exact ih (s := s.touch m .leave) (fun j hj => hscopes j (List.mem_of_mem_dropLast hj)) hshared hrest h

end Survey

namespace Lifted

/-- A variable is declared at the head of a scope that the survey has opened. -/
theorem entered_of_declared {m : Lifted} {v id : Nat} (h : (v, .scope id) ∈ m.survey.declarations) :
    id ∈ entered m.touched := by
  obtain ⟨o, ho, hplace⟩ := mem_declarations.mp h
  unfold Occurrences.declaration at hplace
  split_ifs at hplace
  cases hlast : o.shared.getLast? with
  | none =>
      rw [hlast] at hplace
      cases hplace
      exact List.mem_cons_self
  | some last =>
      rw [hlast] at hplace
      cases hplace
      rw [survey_eq] at ho
      exact Survey.shared_touchAll (by simp [Survey.first]) (by simp [Survey.first]) (fun _ hid => hid) ho _
        (List.mem_of_getLast? hlast)

/-- Both passes over a method open the same scopes in the same order, and so each declaration that is planned for a
scope is written in the one it was planned for. -/
structure NumbersAlike (m : Lifted) : Prop where
  same : m.openings (hasDeclarations m.survey.declarations) = m.openings fun _ => false
  planned : ∀ v id, (v, .scope id) ∈ m.survey.declarations → ∃ pos,
    (m.openings fun _ => false)[id]? = some pos ∧
      (m.openings (hasDeclarations m.survey.declarations))[id]? = some pos

theorem numbersAlike_of_same {m : Lifted}
    (h : m.openings (hasDeclarations m.survey.declarations) = m.openings fun _ => false) : m.NumbersAlike := by
  refine ⟨h, fun v id hv => ?_⟩
  have hid := entered_of_declared hv
  rw [touched, (m.opensBody_openings fun _ => false).ids, List.mem_range] at hid
  exact ⟨_, List.getElem?_eq_getElem hid, by rw [h, List.getElem?_eq_getElem hid]⟩

/-- Each pass numbers its scopes in the order in which they open, and both passes number them alike exactly if no
declaration is planned for the scope of a fleeting comparison. -/
theorem numbering_of_passes (m : Lifted) :
    (∀ hasDecls, m.OpensBody hasDecls (m.openings hasDecls)) ∧
      (m.NumbersAlike ↔ ∀ id pos, (m.openings fun _ => false)[id]? = some pos →
        hasDeclarations m.survey.declarations id = true → m.fleeting pos = false) := by
  have hall : (m.openings fun _ => false) = m.bodyScopes.all := ScopeTree.opened_never 0 _
  have hsame := ScopeTree.opened_eq_all (p := hasDeclarations m.survey.declarations) m.solid_body 0
  rw [hall]
  simp only [Nat.zero_add] at hsame
  refine ⟨m.opensBody_openings, fun h => hsame.mp (h.same.trans hall), fun h => numbersAlike_of_same ?_⟩
  rw [hall]
  exact hsame.mpr h

theorem hasDeclarations_survey (m : Lifted) : hasDeclarations m.survey.declarations =
    fun id => m.survey.occurrences.any fun x => x.2.declaration == .scope id := by
  funext id
  rw [hasDeclarations, Survey.declarations, (List.mergeSort_perm _ _).any_eq, List.any_map]
  rfl

/-- The variable of a read exception that no handler gets is compared where nothing is done either way. -/
def idleComparison : List Insn :=
  [.of (.moveException (some (.object "java.lang.Exception"))) [] (some (.plain 1)) 0,
    .of (.jumpIf .eq 4) [.ofReg 0] none 1,
    .of (.invoke .static ⟨"Foo", "foo", [], .void⟩) [] none 2,
    .of (.goto 6) [] none 3,
    .of (.jumpIf .eq 6) [.ofReg 1] none 4,
    .of .nop [] none 5,
    .of (.jumpIf .ne 14) [.ofReg 0] none 6,
    .of (.jumpIf .gt 10) [.ofReg 0] none 7,
    .of .const [.lit 1 .int] (some (.plain 2)) 8,
    .of (.goto 11) [] none 9,
    .of .const [.lit 2 .int] (some (.plain 2)) 10,
    .of (.invoke .static ⟨"Foo", "use", [.int], .void⟩) [.ofReg 2] none 11,
    .of (.invoke .static ⟨"Foo", "bar", [], .void⟩) [] none 12,
    .of .nop [] none 13,
    .of .ret [] none 14]

/-- The declaration of the variable that is assigned either way is planned for the body of the comparison before, and
written in the first of the two arms. -/
theorem not_numbersAlike_idleComparison :
    ∃ m, ofCode ⟨"a.B", "m", [.int], .void, ⟨8⟩⟩ [.typed 0 .int] idleComparison [] 15 = .ok m ∧
      hasDeclarations m.survey.declarations 4 = true ∧
      (m.openings fun _ => false)[4]? = some [1, 0] ∧
      (m.openings (hasDeclarations m.survey.declarations))[4]? = some [1, 0, 0, 0] ∧ ¬ m.NumbersAlike := by
  refine ⟨of _ _ _ _, rfl, ?_⟩
  rw [hasDeclarations_survey]
  refine ⟨by decide +kernel, by decide +kernel, by decide +kernel, fun h => ?_⟩
  have hsame := h.same
  rw [hasDeclarations_survey] at hsame
  revert hsame
  decide +kernel

end Lifted

end JavaLift.Source
