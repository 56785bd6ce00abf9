import JavaLift.Proofs.Source.Blocks

namespace JavaLift.Source

def Rooted (B : List Bracket) : Prop := B.getLast? = some (.scope 0)

namespace Rooted

variable {x : Bracket} {B : List Bracket}

theorem tail (h : Rooted (x :: B)) (hB : B ≠ []) : Rooted B := by
  obtain ⟨y, B, rfl⟩ := List.exists_cons_of_ne_nil hB
  rwa [Rooted, List.getLast?_cons_cons] at h

theorem cons (h : Rooted B) (x : Bracket) : Rooted (x :: B) := by
  cases B with
  | nil => cases h
  | cons y B => rwa [Rooted, List.getLast?_cons_cons]

theorem ne_nil (h : Rooted (x :: B)) (hx : x = .block ∨ ∃ c, x = .handler c) : B ≠ [] := by
  rintro rfl
  rcases hx with rfl | ⟨c, rfl⟩ <;> cases h

theorem enters {id : Nat} {B' : List Bracket} (h : Rooted B) (h' : Enters id B B') : Rooted B' := by
  cases h' with
  | settled _ => exact h.cons _
  | clause c S =>
      cases S with
      | nil => cases h
      | cons y S =>
          rw [Rooted, List.getLast?_cons_cons] at h
          exact Rooted.cons (Rooted.cons h _) _

theorem zero_mem (h : Rooted B) : 0 ∈ scopeIds B := List.mem_filterMap.mpr ⟨_, List.mem_of_getLast? h, rfl⟩

end Rooted

/-- A place in the text: what is done to variables and scopes before it and from there on, the variables declared so far,
and those that are still due at the head of the present scope. -/
structure Stage (m : Lifted) (done rest : List Touch) (D due : List Nat) (s : Scopes) (B : List Bracket) : Prop where
  whole : m.touched = done ++ rest
  confined : Confined (caughtVars m.touched) (expected B) (frames B) rest
  rooted : Rooted B
  bound : s.bound = []
  fit : Fit m D B s.blocks
  scopes : around [] done = scopeIds B
  distinct : (scopeIds B).Nodup
  opened : ∀ id ∈ scopeIds B, id ∈ entered done
  clauses : ∀ c ∈ catchers B, .clause c ∈ m.touched
  planned : ∀ v ∈ D, (m.survey.occurrences.lookup v).isSome
  homes : ∀ v ∈ D, m.home v ∈ entered done
  heads : ∀ v o id, m.survey.occurrences.lookup v = some o → o.declaration = .scope id → id ∈ scopeIds B →
    v ∈ D ∨ v ∈ due
  met : ∀ v o, m.survey.occurrences.lookup v = some o → o.declaration = .firstAssignment →
    (((Survey.first m).touchAll m done).occurrences.lookup v).isSome → v ∈ D
  seen : ∀ v ∈ s.declared, m.isEntry v = true ∨ v ∈ D ∨ v ∈ caughtVars done

namespace Lifted

variable {m : Lifted} {v id : Nat} {o : Occurrences}

theorem home_eq (ho : m.survey.occurrences.lookup v = some o) : m.home v = o.shared.getLast?.getD 0 := by
  rw [home, ho, Option.elim_some]

def due (m : Lifted) (id : Nat) : List Nat := (m.survey.declarations.filter fun x => x.2 == .scope id).map Prod.fst

theorem mem_due : v ∈ m.due id ↔ ∃ o, m.survey.occurrences.lookup v = some o ∧ o.declaration = .scope id := by
  rw [← mem_declarations, due, List.mem_map]
  constructor
  · rintro ⟨⟨w, p⟩, hmem, rfl⟩
    obtain ⟨hmem, hp⟩ := List.mem_filter.mp hmem
    exact (eq_of_beq hp : p = .scope id) ▸ hmem
  · exact fun h => ⟨_, List.mem_filter.mpr ⟨h, beq_self_eq_true _⟩, rfl⟩

theorem nodup_due (m : Lifted) (id : Nat) : (m.due id).Nodup :=
  m.nodup_declarations.sublist (List.filter_sublist.map Prod.fst)

theorem home_of_scope (ho : m.survey.occurrences.lookup v = some o) (hplace : o.declaration = .scope id) :
    m.home v = id := by
  unfold Occurrences.declaration at hplace
  split_ifs at hplace
  cases hplace
  exact home_eq ho

end Lifted

theorem Occurrences.first_of_firstAssignment {o : Occurrences} (h : o.declaration = .firstAssignment) :
    o.assignedFirst = true ∧ o.first = o.shared := by
  unfold declaration at h
  split_ifs at h with hfirst
  obtain ⟨hassigned, hshared⟩ := Bool.and_eq_true_iff.mp hfirst
  exact ⟨hassigned, eq_of_beq hshared⟩

def Touch.occurs (v : Nat) (a : Bool) : Touch := bif a then .assign v else .read v

section

variable {m : Lifted} {v w : Nat} {a : Bool} {ts : List Touch}

theorem Touch.eq_of_occurs (h : Touch.occurs v a = .read w ∨ Touch.occurs v a = .assign w) : v = w := by
  cases a <;> rcases h with h | h <;> cases h <;> rfl

theorem Survey.touch_occurs (s : Survey) : s.touch m (.occurs v a) = s.occur m v a := by cases a <;> rfl

theorem around_occurs (S : List Nat) : around S [.occurs v a] = S := by cases a <;> rfl

theorem mem_entered_append {id : Nat} (h : id ∈ entered ts) (us : List Touch) : id ∈ entered (ts ++ us) := by
  rw [entered_append]
  exact List.mem_append_left _ h

theorem confined_occurs {caught : List Nat} {next : Option CatchKey} {inside : List (Option CatchKey)} :
    Confined caught next inside (.occurs v a :: ts) ↔
      (v ∈ caught → some (.var v) ∈ inside) ∧ Confined caught next inside ts := by
  cases a <;> exact Iff.rfl

end

namespace Stage

variable {m : Lifted} {done rest : List Touch} {D due : List Nat} {s : Scopes} {B S : List Bracket} {v w id : Nat}
  {o : Occurrences} {c : Catcher} {vs : List Nat} {t : Touch} {x : Bracket} {a : Bool} {j : Identifier}

theorem scopes_eq (h : Stage m done rest D due s B) : ((Survey.first m).touchAll m done).scopes = (scopeIds B).reverse := by
  rw [Survey.scopes_touchAll, ← h.scopes]
  rfl

theorem whole_next (h : Stage m done (t :: rest) D due s B) : m.touched = (done ++ [t]) ++ rest := by
  rw [h.whole, List.append_assoc, List.singleton_append]

theorem seen_append (h : Stage m done rest D due s B) (ts : List Touch) :
    ∀ v ∈ s.declared, m.isEntry v = true ∨ v ∈ D ∨ v ∈ caughtVars (done ++ ts) := by
  rw [caughtVars_append]
  exact fun v hv => (h.seen v hv).imp_right fun hv => hv.imp_right (List.mem_append_left _)

theorem named (h : Stage m done rest D due s B) (hv : v ∈ D) : m.Named v := Lifted.named_of_planned (h.planned v hv)

/-- A variable is in force inside the scopes around all its occurrences once it is declared. -/
theorem visible_of_declared (h : Stage m done rest D due s B) (ho : m.survey.occurrences.lookup v = some o)
    (hshared : o.shared <+: (scopeIds B).reverse) (hv : v ∈ D) : m.nameFor v ∈ s.blocks.flatten := by
  refine h.fit.declared_mem hv ?_
  rw [Lifted.home_eq ho]
  cases hlast : o.shared.getLast? with
  | none => exact h.rooted.zero_mem
  | some id => exact List.mem_reverse.mp (hshared.subset (List.mem_of_getLast? hlast))

/-- In these scopes a variable is declared, unless its first assignment is still to come. -/
theorem declared_of_shared (h : Stage m done rest D [] s B) (ho : m.survey.occurrences.lookup v = some o)
    (hshared : o.shared <+: (scopeIds B).reverse) (hfirst : o.declaration = .firstAssignment → v ∈ D) : v ∈ D := by
  cases hplace : o.declaration with
  | firstAssignment => exact hfirst hplace
  | scope id =>
      refine (h.heads v o id ho hplace ?_).resolve_right List.not_mem_nil
      have hhome := Lifted.home_of_scope ho hplace
      rw [Lifted.home_eq ho] at hhome
      cases hlast : o.shared.getLast? with
      | none =>
          rw [hlast] at hhome
          exact hhome ▸ h.rooted.zero_mem
      | some last =>
          rw [hlast] at hhome
          exact (hhome : last = id) ▸ List.mem_reverse.mp (hshared.subset (List.mem_of_getLast? hlast))

/-- What is known of a variable that occurs here and holds neither an argument nor an exception. If it is not declared
yet and is to be declared at its first assignment, that is here. -/
theorem occurrence (h : Stage m done (.occurs v a :: rest) D due s B) (hentry : m.isEntry v = false)
    (hcaught : v ∉ caughtVars m.touched) :
    ∃ o, m.survey.occurrences.lookup v = some o ∧ o.shared <+: (scopeIds B).reverse ∧
      (o.declaration = .firstAssignment → v ∉ D → a = true ∧ o.shared = (scopeIds B).reverse) := by
  have hnotes : ((Survey.first m).touchAll m done).Notes m v := by
    refine ⟨hentry, fun hmem => hcaught ?_⟩
    rw [h.whole, caughtVars_append, List.mem_append]
    exact .inl ((Survey.mem_caught_touchAll.mp hmem).resolve_left List.not_mem_nil)
  obtain ⟨o, ho, hshared, hfirst⟩ := Survey.noted (a := a) hnotes rest
  rw [← Survey.touch_occurs, ← Survey.touchAll_cons, ← Survey.touchAll_append, ← h.whole, ← Lifted.survey_eq] at ho
  rw [h.scopes_eq] at hshared hfirst
  refine ⟨o, ho, hshared, fun hplace hv => ?_⟩
  have hnone : ((Survey.first m).touchAll m done).occurrences.lookup v = none := by
    by_contra hsome
    exact hv (h.met v o ho hplace (Option.isSome_iff_ne_none.mpr hsome))
  obtain ⟨hassigned, hplaces⟩ := Occurrences.first_of_firstAssignment hplace
  exact ⟨(hfirst hnone).1.symm.trans hassigned, hplaces.symm.trans (hfirst hnone).2⟩

theorem occur (hclear : m.Clear) (h : Stage m done (.occurs v a :: rest) D [] s B)
    (hnow : a = true → ∀ o, m.survey.occurrences.lookup v = some o → o.declaration = .firstAssignment → v ∈ D) :
    m.nameFor v ∈ s.blocks.flatten ∧ Stage m (done ++ [.occurs v a]) rest D [] s B := by
  obtain ⟨hinside, hconfined⟩ := confined_occurs.mp h.confined
  have hfirst (hentry : m.isEntry v = false) (hcaught : v ∉ caughtVars m.touched) :
      ∃ o, m.survey.occurrences.lookup v = some o ∧ o.shared <+: (scopeIds B).reverse ∧
        (o.declaration = .firstAssignment → v ∈ D) := by
    obtain ⟨o, ho, hshared, hlast⟩ := h.occurrence hentry hcaught
    refine ⟨o, ho, hshared, fun hplace => ?_⟩
    by_contra hv
    exact hv (hnow (hlast hplace hv).1 o ho hplace)
  refine ⟨?_, { h with
    whole := h.whole_next, confined := hconfined, scopes := ?_,
    opened := fun id hid => mem_entered_append (h.opened id hid) _,
    homes := fun w hw => mem_entered_append (h.homes w hw) _, met := ?_, seen := h.seen_append _ }⟩
  · cases hentry : m.isEntry v with
    | true => exact h.fit.entry_mem hentry
    | false =>
        by_cases hcaught : v ∈ caughtVars m.touched
        · exact h.fit.caught_mem (hinside hcaught)
        · obtain ⟨o, ho, hshared, hplace⟩ := hfirst hentry hcaught
          exact h.visible_of_declared ho hshared (h.declared_of_shared ho hshared hplace)
  · rw [around_append, h.scopes, around_occurs]
  · intro w o ho hplace hmet
    rw [Survey.touchAll_append, Survey.touchAll_cons, Survey.touchAll_nil] at hmet
    -- Of the variables to be declared at their first assignments, no other one than `v` can be met only now.
    rcases Survey.lookup_touch_isSome hmet with hmet | ⟨-, hw⟩
    · exact h.met w o ho hplace hmet
    · obtain rfl := Touch.eq_of_occurs hw
      obtain ⟨hentry, hcaught⟩ := hclear.apart_of_planned (v := v) (by rw [ho, Option.isSome_some])
      obtain ⟨o', ho', -, hdeclared⟩ := hfirst hentry hcaught
      obtain rfl : o' = o := Option.some.inj (ho'.symm.trans ho)
      exact hdeclared hplace

theorem reads (hclear : m.Clear) (h : Stage m done (vs.map .read ++ rest) D [] s B) :
    (∀ v ∈ vs, m.nameFor v ∈ s.blocks.flatten) ∧ Stage m (done ++ vs.map .read) rest D [] s B := by
  induction vs generalizing done with
  | nil =>
      refine ⟨nofun, ?_⟩
      rwa [List.map_nil, List.append_nil]
  | cons v vs ih =>
      obtain ⟨hv, h⟩ := occur (v := v) (a := false) hclear h nofun
      obtain ⟨hvs, h⟩ := ih h
      rw [List.append_assoc] at h
      exact ⟨List.forall_mem_cons.mpr ⟨hv, hvs⟩, h⟩

/-- The names of a variable and of what is declared so far differ, unless that is the variable. -/
theorem name_ne (hclear : m.Clear) (h : Stage m done rest D due s B) (hB : Settled B)
    (hplanned : (m.survey.occurrences.lookup v).isSome) (hv : v ∉ D) (hj : j ∈ s.blocks.flatten) :
    j.name ≠ (m.nameFor v).name := by
  obtain ⟨hentry, hcaught⟩ := hclear.apart_of_planned hplanned
  have hnamed : m.Named v := Lifted.named_of_planned hplanned
  rcases h.fit.known hB hj with hj | ⟨w, hw, rfl⟩ | ⟨c, hc, -, rfl⟩
  · exact hj.name_ne hnamed hentry
  · exact fun he => hv ((h.named hw).eq hnamed he ▸ hw)
  · refine (hnamed.name_ne_caughtAs (h.clauses c hc) ?_).symm
    rintro rfl
    exact hcaught (mem_caughtVars.mpr (h.clauses _ hc))

theorem admits (hclear : m.Clear) (h : Stage m done rest D due s B) (hB : Settled B)
    (hplanned : (m.survey.occurrences.lookup v).isSome) (hv : v ∉ D) : s.Admits (.declares (m.nameFor v)) := by
  obtain ⟨hentry, hcaught⟩ := hclear.apart_of_planned hplanned
  refine ⟨?_, fun j hj => h.name_ne hclear hB hplanned hv ?_⟩
  · rintro w ⟨⟩ hw
    rcases h.seen v hw with hw | hw | hw
    · rw [hentry] at hw
      cases hw
    · exact hv hw
    · rw [h.whole, caughtVars_append] at hcaught
      exact hcaught (List.mem_append_left _ hw)
  · rwa [Scopes.visible, h.bound, List.nil_append] at hj

theorem declare (h : Stage m done rest D due s (.scope id :: S)) (hplanned : (m.survey.occurrences.lookup v).isSome)
    (hhome : m.home v = id) {later : List Nat} (hdue : ∀ w ∈ due, w = v ∨ w ∈ later) :
    Stage m done rest (v :: D) later (s.after (.declares (m.nameFor v))) (.scope id :: S) where
  whole := h.whole
  confined := h.confined
  rooted := h.rooted
  bound := h.bound
  fit := h.fit.declare hhome (List.nodup_cons.mp h.distinct).1
  scopes := h.scopes
  distinct := h.distinct
  opened := h.opened
  clauses := h.clauses
  planned := List.forall_mem_cons.mpr ⟨hplanned, h.planned⟩
  homes := List.forall_mem_cons.mpr ⟨hhome ▸ h.opened id List.mem_cons_self, h.homes⟩
  heads w o j ho hplace hj := by
    rcases h.heads w o j ho hplace hj with hw | hw
    · exact .inl (List.mem_cons_of_mem _ hw)
    · rcases hdue w hw with rfl | hw
      · exact .inl List.mem_cons_self
      · exact .inr hw
  met w o ho hplace hmet := List.mem_cons_of_mem _ (h.met w o ho hplace hmet)
  seen := List.forall_mem_cons.mpr
    ⟨.inr (.inl List.mem_cons_self), fun w hw => (h.seen w hw).imp_right fun hw => hw.imp_left (List.mem_cons_of_mem _)⟩

theorem closes (h : Stage m done rest D due s (x :: B)) (hx : x = .block ∨ ∃ c, x = .handler c) :
    Stage m done rest D due (s.after .closes) B ∧ Settled B := by
  obtain ⟨hfit, hB⟩ := h.fit.closes hx
  have hids : scopeIds (x :: B) = scopeIds B := by rcases hx with rfl | ⟨c, rfl⟩ <;> rfl
  have hframes : frames (x :: B) = frames B := by rcases hx with rfl | ⟨c, rfl⟩ <;> rfl
  have hexpected : expected (x :: B) = expected B := by
    rw [expected_eq_none hB]
    rcases hx with rfl | ⟨c, rfl⟩ <;> rfl
  have hcatchers : catchers B ⊆ catchers (x :: B) := by
    rcases hx with rfl | ⟨c, rfl⟩
    · exact List.Subset.refl _
    · exact List.subset_cons_self _ _
  refine ⟨{ h with
    confined := ?_, rooted := h.rooted.tail (h.rooted.ne_nil hx), fit := hfit, scopes := ?_, distinct := ?_,
    opened := ?_, clauses := ?_, heads := ?_ }, hB⟩
  · rw [← hexpected, ← hframes]
    exact h.confined
  · rw [h.scopes, hids]
  · exact hids ▸ h.distinct
  · exact hids ▸ h.opened
  · exact fun c hc => h.clauses c (hcatchers hc)
  · exact hids ▸ h.heads

theorem opens (h : Stage m done rest D due s B) (hB : Settled B) :
    Stage m done rest D due (s.after .opens) (.block :: B) := by
  have hfit := h.fit.opens hB
  have hconfined := h.confined
  rw [← h.bound] at hfit
  rw [expected_eq_none hB] at hconfined
  exact { h with bound := rfl, fit := hfit, rooted := h.rooted.cons _, confined := hconfined }

theorem leave (h : Stage m done (.leave :: rest) D due s (.scope id :: S)) (hS : S ≠ []) :
    Stage m (done ++ [.leave]) rest D due s S := by
  obtain ⟨hframes, hexpected⟩ := h.fit.frames_tail
  refine { h with
    whole := h.whole_next, confined := ?_, rooted := h.rooted.tail hS, fit := h.fit.leave, scopes := ?_,
    distinct := (List.nodup_cons.mp h.distinct).2,
    opened := fun j hj => mem_entered_append (h.opened j (List.mem_cons_of_mem _ hj)) _,
    homes := fun v hv => mem_entered_append (h.homes v hv) _,
    heads := fun v o j ho hplace hj => h.heads v o j ho hplace (List.mem_cons_of_mem _ hj), met := ?_,
    seen := h.seen_append _ }
  · rw [← hframes, hexpected]
    exact h.confined
  · rw [around_append, h.scopes]
    rfl
  · rw [Survey.touchAll_append]
    exact h.met

theorem name_ne_caughtAs (hclear : m.Clear) (h : Stage m done (.clause c :: rest) D due s B) (hB : Settled B)
    (hj : j ∈ s.blocks.flatten) : j.name ≠ (m.caughtAs c).name := by
  have hmem : .clause c ∈ m.touched := by
    rw [h.whole]
    exact List.mem_append_right _ List.mem_cons_self
  rcases h.fit.known hB hj with hj | ⟨w, hw, rfl⟩ | ⟨c', hc', hframe, rfl⟩
  · exact hj.name_ne_caughtAs hclear hmem
  · refine (h.named hw).name_ne_caughtAs hmem ?_
    rintro rfl
    exact (hclear.apart_of_planned (h.planned w hw)).2 (mem_caughtVars.mpr hmem)
  · exact fun he => h.confined.1 (Lifted.key_eq_of_caughtAs (h.clauses c' hc') hmem he ▸ hframe)

theorem admits_clause (hclear : m.Clear) (h : Stage m done (.clause c :: rest) D due s B) (hB : Settled B) :
    s.Admits (.binds (m.caughtAs c)) := by
  refine ⟨fun v hv hmem => ?_, fun j hj => h.name_ne_caughtAs hclear hB ?_⟩
  · cases c with
    | block b type => cases hv
    | var w =>
        cases hv
        have hcaught : v ∈ caughtVars m.touched := by
          rw [h.whole]
          exact mem_caughtVars.mpr (List.mem_append_right _ List.mem_cons_self)
        rcases h.seen v hmem with hentry | hv | hbefore
        · rw [hclear.apart v hcaught] at hentry
          cases hentry
        · exact (hclear.apart_of_planned (h.planned v hv)).2 hcaught
        · have honce := hclear.once
          rw [h.whole, caughtVars_append] at honce
          exact (List.nodup_append.mp honce).2.2 v hbefore v List.mem_cons_self rfl
  · rwa [Scopes.visible, h.bound, List.nil_append] at hj

theorem clause (h : Stage m done (.clause c :: rest) D due s B) (hB : Settled B) :
    Stage m (done ++ [.clause c]) rest D due ((s.after (.binds (m.caughtAs c))).after .opens) (.clause c :: B) where
  whole := h.whole_next
  confined := h.confined.2
  rooted := h.rooted.cons _
  bound := rfl
  fit := by
    have hfit := Fit.clause (c := c) h.fit hB
    rwa [← h.bound] at hfit
  scopes := by
    rw [around_append, h.scopes]
    rfl
  distinct := h.distinct
  opened id hid := mem_entered_append (h.opened id hid) _
  clauses := List.forall_mem_cons.mpr ⟨h.whole ▸ List.mem_append_right _ List.mem_cons_self, h.clauses⟩
  planned := h.planned
  homes v hv := mem_entered_append (h.homes v hv) _
  heads := h.heads
  met := by
    rw [Survey.touchAll_append]
    cases c <;> exact h.met
  seen := by
    cases c with
    | block b type => exact h.seen_append _
    | var w =>
        refine List.forall_mem_cons.mpr ⟨.inr (.inr ?_), h.seen_append _⟩
        exact mem_caughtVars.mpr (List.mem_append_right _ List.mem_cons_self)

theorem enter_fresh (h : Stage m done (.enter id :: rest) D due s B) : id ∉ entered done := by
  have hnodup := m.entered_nodup
  rw [show touches (m.items fun _ => false) = _ from h.whole, entered_append] at hnodup
  exact fun hid => (List.nodup_append.mp hnodup).2.2 id hid id List.mem_cons_self rfl

theorem not_declared (h : Stage m done (.enter id :: rest) D due s B) (hv : v ∈ m.due id) : v ∉ D := by
  obtain ⟨o, ho, hplace⟩ := Lifted.mem_due.mp hv
  exact fun hmem => h.enter_fresh (Lifted.home_of_scope ho hplace ▸ h.homes v hmem)

theorem enter (h : Stage m done (.enter id :: rest) D [] s B) (hB : Enters id B S) :
    Stage m (done ++ [.enter id]) rest D (m.due id) s S := by
  have hfresh := h.enter_fresh
  have hids := hB.scopeIds
  refine { h with
    whole := h.whole_next, confined := ?_, rooted := h.rooted.enters hB, fit := ?_, scopes := ?_, distinct := ?_,
    opened := ?_, clauses := ?_, homes := fun v hv => mem_entered_append (h.homes v hv) _, heads := ?_, met := ?_,
    seen := h.seen_append _ }
  · rw [hB.expected, hB.frames]
    exact h.confined
  · exact h.fit.enter hB fun v hv he => hfresh (he ▸ h.homes v hv)
  · rw [around_append, h.scopes, hids]
    rfl
  · rw [hids]
    exact List.nodup_cons.mpr ⟨fun hid => hfresh (h.opened id hid), h.distinct⟩
  · rw [hids]
    refine List.forall_mem_cons.mpr ⟨?_, fun j hj => mem_entered_append (h.opened j hj) _⟩
    rw [entered_append]
    exact List.mem_append_right _ List.mem_cons_self
  · rw [hB.catchers]
    exact h.clauses
  · intro v o j ho hplace hj
    rw [hids] at hj
    rcases List.mem_cons.mp hj with rfl | hj
    · exact .inr (Lifted.mem_due.mpr ⟨o, ho, hplace⟩)
    · exact .inl ((h.heads v o j ho hplace hj).resolve_right List.not_mem_nil)
  · rw [Survey.touchAll_append]
    exact h.met

end Stage

end JavaLift.Source
