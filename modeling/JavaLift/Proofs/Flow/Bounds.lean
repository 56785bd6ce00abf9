import JavaLift.Proofs.Flow.Build

namespace JavaLift

def Inconsistency.isBoundary : Inconsistency → Bool
  | .targetOutside .. | .targetInside .. => true
  | _ => false

theorem Insn.not_isBoundary_fallsOff (i : Insn) : i.fallsOff.isBoundary = false := by
  unfold fallsOff
  split <;> rfl

namespace Graph

variable {g : Graph} {insns : List Insn} {tries : List TryRange} {length : Nat}

def bounds (insns : List Insn) (tries : List TryRange) (length : Nat) : List Nat :=
  insns.flatMap (·.op.targets) ++ tries.flatMap (tryBounds length)

theorem checkTarget_eq_ok {target source : Nat} :
    checkTarget insns length target source = .ok () ↔ target < length ∧ target ∈ insns.map (·.offset) := by
  unfold checkTarget
  split
  · rename_i hout
    exact ⟨nofun, fun h => absurd h.1 (Nat.not_lt.mpr hout)⟩
  · rename_i hin
    have hany : (insns.any fun i => i.offset == target) = true ↔ target ∈ insns.map (·.offset) := by simp
    by_cases hmem : target ∈ insns.map (·.offset)
    · rw [if_pos (hany.mpr hmem)]
      exact ⟨fun _ => ⟨Nat.not_le.mp hin, hmem⟩, fun _ => rfl⟩
    · rw [if_neg (mt hany.mp hmem)]
      exact ⟨nofun, fun h => absurd h.2 hmem⟩

theorem isBoundary_of_checkTarget {target source : Nat} {e : Inconsistency}
    (h : checkTarget insns length target source = .error e) : e.isBoundary = true := by
  unfold checkTarget at h
  split at h
  · cases h
    rfl
  · split at h
    · cases h
    · cases h
      rfl

theorem checkTargets_eq_ok :
    checkTargets insns tries length = .ok () ↔
      ∀ t ∈ bounds insns tries length, t < length ∧ t ∈ insns.map (·.offset) := by
  have hall : checkTargets insns tries length = .ok () ↔
      (∀ i ∈ insns, ∀ t ∈ i.op.targets, t < length ∧ t ∈ insns.map (·.offset)) ∧
        ∀ r ∈ tries, ∀ t ∈ tryBounds length r, t < length ∧ t ∈ insns.map (·.offset) := by
    refine bind_eq_ok.trans ⟨fun ⟨(), h⟩ => ?_, fun h => ⟨(), ?_⟩⟩
    · simpa only [forM_eq_ok, checkTarget_eq_ok] using h
    · simpa only [forM_eq_ok, checkTarget_eq_ok] using h
  rw [hall]
  simp only [bounds, List.mem_append, List.mem_flatMap]
  constructor
  · rintro ⟨hinsns, htries⟩ t (⟨i, hi, ht⟩ | ⟨r, hr, ht⟩)
    · exact hinsns i hi t ht
    · exact htries r hr t ht
  · exact fun h => ⟨fun i hi t ht => h t (.inl ⟨i, hi, ht⟩), fun r hr t ht => h t (.inr ⟨r, hr, ht⟩)⟩

theorem isBoundary_of_checkTargets {e : Inconsistency} (h : checkTargets insns tries length = .error e) :
    e.isBoundary = true := by
  rcases bind_eq_error.mp h with h | ⟨_, -, h⟩
  · obtain ⟨i, -, h⟩ := exists_of_forM_error h
    obtain ⟨t, -, h⟩ := exists_of_forM_error h
    exact isBoundary_of_checkTarget h
  · obtain ⟨r, -, h⟩ := exists_of_forM_error h
    obtain ⟨t, -, h⟩ := exists_of_forM_error h
    exact isBoundary_of_checkTarget h

theorem not_isBoundary_of_findBlock {starts : List Nat} {offset : Nat} {e : Inconsistency}
    (h : findBlock starts offset = .error e) : e.isBoundary = false := by
  unfold findBlock at h
  split at h <;> cases h
  rfl

theorem not_isBoundary_of_normalEdges {starts : List Nat} {b : Nat} {last : Insn} {e : Inconsistency}
    (h : normalEdges starts b last = .error e ∨ ∃ succs, normalEdges starts b last = .ok (succs, some e)) :
    e.isBoundary = false := by
  rw [normalEdges_eq] at h
  rcases h with h | ⟨succs, h⟩
  · rcases bind_eq_error.mp h with h | ⟨_, -, h⟩
    · obtain ⟨_, -, h⟩ := exists_of_mapM_error h
      exact not_isBoundary_of_findBlock h
    · cases h
  · obtain ⟨_, -, h⟩ := bind_eq_ok.mp h
    have hcause := (Prod.mk.inj (Except.ok.inj h)).2
    split at hcause
    · exact Option.some.inj hcause ▸ last.not_isBoundary_fallsOff
    · cases hcause

theorem not_isBoundary_of_draft {e : Inconsistency} (h : draft insns tries length = .error e) :
    e.isBoundary = false := by
  rcases bind_eq_error.mp h with h | ⟨_, -, h⟩
  · obtain ⟨⟨run, b⟩, -, h⟩ := exists_of_mapM_error h
    cases hlast : run.getLast? with
    | none => simp [hlast] at h
    | some last =>
        simp only [hlast] at h
        exact not_isBoundary_of_normalEdges (.inl h)
  · rcases bind_eq_error.mp h with h | ⟨_, -, h⟩
    · obtain ⟨t, -, h⟩ := exists_of_mapM_error h
      rcases bind_eq_error.mp h with h | ⟨_, -, h⟩
      · obtain ⟨x, -, h⟩ := exists_of_mapM_error h
        rcases bind_eq_error.mp h with h | ⟨_, -, h⟩
        · exact not_isBoundary_of_findBlock h
        · cases h
      · cases h
    · cases h

theorem not_isBoundary_of_cause {drafts : List Draft} {regions : List TryRegion}
    (h : draft insns tries length = .ok (drafts, regions)) {d : Draft} (hd : d ∈ drafts) {e : Inconsistency}
    (he : d.cause = some e) : e.isBoundary = false := by
  obtain ⟨edges, hedges, -, rfl⟩ := draft_eq_ok h
  obtain ⟨⟨⟨run, start, succs, cause⟩, b⟩, hmem, rfl⟩ := List.mem_map.mp hd
  have hedge : (succs, cause) ∈ edges := (List.of_mem_zip (List.of_mem_zip (List.fst_mem_of_mem_zipIdx hmem)).2).2
  obtain ⟨⟨run, b⟩, -, hrun⟩ := exists_of_mem_mapM hedges hedge
  obtain rfl : cause = some e := he
  unfold edgesOf at hrun
  cases hlast : run.getLast? with
  | none => simp [hlast] at hrun
  | some last =>
      simp only [hlast] at hrun
      exact not_isBoundary_of_normalEdges (.inr ⟨_, hrun⟩)

/-- A graph is refused for a bound exactly if there are instructions, and one of the bounds is not at an instruction
within the code. -/
theorem build_boundary_iff :
    (∃ e, build insns tries length = .error e ∧ e.isBoundary = true) ↔
      insns ≠ [] ∧ ∃ t ∈ bounds insns tries length, ¬ (t < length ∧ t ∈ insns.map (·.offset)) := by
  constructor
  · rintro ⟨e, he, hb⟩
    unfold build at he
    by_cases hempty : insns.isEmpty = true
    · rw [if_pos hempty] at he
      cases he
      cases hb
    · rw [if_neg hempty] at he
      refine ⟨by simpa using hempty, ?_⟩
      by_contra hall
      push Not at hall
      have hcheck := checkTargets_eq_ok.mpr hall
      rcases bind_eq_error.mp he with he | ⟨_, -, he⟩
      · rw [hcheck] at he
        cases he
      · rcases bind_eq_error.mp he with he | ⟨⟨drafts, regions⟩, hdraft, he⟩
        · exact absurd hb (by simp [not_isBoundary_of_draft he])
        · simp only at he
          split at he
          · rename_i cause hcause
            cases he
            obtain ⟨d, hd, hcause⟩ := List.exists_of_findSome?_eq_some hcause
            obtain ⟨⟨d, n⟩, hmem, rfl⟩ := List.mem_map.mp hd
            have hmem := List.fst_mem_of_mem_zipIdx (List.mem_filter.mp hmem).1
            exact absurd hb (by simp [not_isBoundary_of_cause hdraft hmem hcause])
          · cases he
  · rintro ⟨hne, t, ht, hout⟩
    have hempty : ¬ insns.isEmpty = true := by simpa using hne
    cases hcheck : checkTargets insns tries length with
    | error e =>
        refine ⟨e, ?_, isBoundary_of_checkTargets hcheck⟩
        unfold build
        rw [if_neg hempty, hcheck]
        rfl
    | ok u => exact absurd (checkTargets_eq_ok.mp hcheck t ht) hout

end Graph

end JavaLift
