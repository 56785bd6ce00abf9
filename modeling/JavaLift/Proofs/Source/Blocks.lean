import JavaLift.Proofs.Source.Nesting
import JavaLift.Proofs.Source.Surveying

namespace JavaLift.Source

namespace Lifted

variable (m : Lifted)

def nameFor (v : Nat) : Identifier := ⟨some v, m.survey.namer.nameOf v⟩

def caughtAs : Catcher → Identifier
  | .var v => m.nameFor v
  | .block b _ => ⟨none, m.survey.namer.caughtName b⟩

def Named (v : Nat) : Prop := (m.survey.namer.names.lookup v).isSome

def Entry (j : Identifier) : Prop :=
  (∃ v, m.isEntry v = true ∧ m.Named v ∧ j = m.nameFor v) ∨ j.var = none ∧ j.name ∈ m.entryWords

def home (v : Nat) : Nat := (m.survey.occurrences.lookup v).elim 0 fun o => o.shared.getLast?.getD 0

variable {m} {v w b : Nat} {j : Identifier}

theorem Named.lookup (h : m.Named v) : m.survey.namer.names.lookup v = some (m.survey.namer.nameOf v) := by
  obtain ⟨name, hname⟩ := Option.isSome_iff_exists.mp h
  rw [Namer.nameOf, hname, Option.getD_some]

theorem lookup_caughtName (h : (m.survey.namer.caught.lookup b).isSome) :
    m.survey.namer.caught.lookup b = some (m.survey.namer.caughtName b) := by
  obtain ⟨name, hname⟩ := Option.isSome_iff_exists.mp h
  rw [Namer.caughtName, hname, Option.getD_some]

theorem Named.eq (hv : m.Named v) (hw : m.Named w) (h : (m.nameFor v).name = (m.nameFor w).name) : v = w :=
  m.survey_proper.eq_of_name hv.lookup (hw.lookup.trans (congrArg some h.symm))

theorem isEntry_of_mem_entries {s : String} (h : (some v, s) ∈ m.entries) : m.isEntry v = true := by
  rw [isEntry, Bool.or_eq_true, List.contains_iff_mem]
  rcases List.mem_cons.mp h with h | h
  · left
    rw [← (Prod.mk.inj h).1]
    exact beq_self_eq_true _
  · exact .inr (List.of_mem_zip h).1

theorem Entry.name_ne (hj : m.Entry j) (hv : m.Named v) (hentry : m.isEntry v = false) : j.name ≠ (m.nameFor v).name := by
  rcases hj with ⟨w, hw, hnamed, rfl⟩ | ⟨-, hword⟩
  · intro he
    rw [hnamed.eq hv he, hentry] at hw
    cases hw
  · rcases m.survey_proper.later _ (Assoc.mem_of_lookup hv.lookup) with hfirst | hlater
    · rw [isEntry_of_mem_entries (m.mem_firstNamer.mp hfirst)] at hentry
      cases hentry
    · exact fun (he : j.name = m.survey.namer.nameOf v) => hlater (he ▸ hword)

variable {c c' : Catcher}

theorem Entry.name_ne_caughtAs (hclear : m.Clear) (hj : m.Entry j) (hc : .clause c ∈ m.touched) :
    j.name ≠ (m.caughtAs c).name := by
  cases c with
  | var v => exact hj.name_ne (named_of_mem hc rfl) (hclear.apart v (mem_caughtVars.mpr hc))
  | block b type =>
      have hb := lookup_caughtName (caughtName_of_mem hc)
      rcases hj with ⟨w, -, hnamed, rfl⟩ | ⟨-, hword⟩
      · exact m.survey_proper.name_ne_caughtName hnamed.lookup hb
      · rintro (he : _ = m.survey.namer.caughtName b)
        exact m.survey_proper.caught _ (Assoc.mem_of_lookup hb) (he ▸ hword)

theorem Named.name_ne_caughtAs (hw : m.Named w) (hc : .clause c ∈ m.touched) (hne : c ≠ .var w) :
    (m.nameFor w).name ≠ (m.caughtAs c).name := by
  cases c with
  | var v => exact fun he => hne (congrArg Catcher.var (hw.eq (named_of_mem hc rfl) he)).symm
  | block b type => exact m.survey_proper.name_ne_caughtName hw.lookup (lookup_caughtName (caughtName_of_mem hc))

theorem key_eq_of_caughtAs (hc : .clause c ∈ m.touched) (hc' : .clause c' ∈ m.touched)
    (he : (m.caughtAs c).name = (m.caughtAs c').name) : c.key = c'.key := by
  cases c with
  | var v =>
      have hv : m.Named v := named_of_mem hc rfl
      by_contra hne
      refine hv.name_ne_caughtAs hc' ?_ he
      rintro rfl
      exact hne rfl
  | block b type =>
      cases c' with
      | var w =>
          have hw : m.Named w := named_of_mem hc' rfl
          exact absurd he.symm (hw.name_ne_caughtAs hc Catcher.noConfusion)
      | block b' type' =>
          have hb := lookup_caughtName (caughtName_of_mem hc)
          have hb' := lookup_caughtName (caughtName_of_mem hc')
          have he : m.survey.namer.caughtName b = m.survey.namer.caughtName b' := he
          exact congrArg CatchKey.block (m.survey_proper.eq_of_caughtName hb (hb'.trans (congrArg some he.symm)))

end Lifted

section

variable {B S : List Bracket} {c : Catcher} {id v : Nat}

def scopeIds (B : List Bracket) : List Nat := B.filterMap fun
  | .scope id => some id
  | _ => none

def catchers (B : List Bracket) : List Catcher := B.filterMap fun
  | .clause c | .handler c => some c
  | _ => none

def expected : List Bracket → Option CatchKey
  | .clause c :: _ => some c.key
  | _ => none

def frames : List Bracket → List (Option CatchKey)
  | .scope _ :: .handler c :: B => some c.key :: frames B
  | .scope _ :: B => none :: frames B
  | _ :: B => frames B
  | [] => []

@[simp] theorem scopeIds_scope (id : Nat) (B : List Bracket) : scopeIds (.scope id :: B) = id :: scopeIds B := rfl

@[simp] theorem scopeIds_block (B : List Bracket) : scopeIds (.block :: B) = scopeIds B := rfl

@[simp] theorem scopeIds_clause (c : Catcher) (B : List Bracket) : scopeIds (.clause c :: B) = scopeIds B := rfl

@[simp] theorem scopeIds_handler (c : Catcher) (B : List Bracket) : scopeIds (.handler c :: B) = scopeIds B := rfl

theorem frames_scope (h : Settled B) : frames (.scope id :: B) = none :: frames B := by
  cases B with
  | nil => rfl
  | cons x B => cases x <;> first | rfl | exact h.elim

theorem expected_eq_none (h : Settled B) : expected B = none := by
  cases B with
  | nil => rfl
  | cons x B => cases x <;> first | rfl | exact h.elim

inductive Enters (id : Nat) : List Bracket → List Bracket → Prop where
  | settled {B : List Bracket} (h : Settled B) : Enters id B (.scope id :: B)
  | clause (c : Catcher) (S : List Bracket) : Enters id (.clause c :: S) (.scope id :: .handler c :: S)

namespace Enters

theorem scopeIds (h : Enters id B S) : scopeIds S = id :: scopeIds B := by cases h <;> rfl

theorem catchers (h : Enters id B S) : catchers S = catchers B := by cases h <;> rfl

theorem frames (h : Enters id B S) : frames S = expected B :: frames B := by
  cases h with
  | settled h => rw [frames_scope h, expected_eq_none h]
  | clause => rfl

theorem expected (h : Enters id B S) : expected S = none := by cases h <;> rfl

end Enters

end

/-- The names in the open blocks. Those of the entry are in force everywhere, that of an exception in the block of its
handler, and that of a variable declared so far in its scope. Nothing else is declared in these blocks. -/
inductive Fit (m : Lifted) (declared : List Nat) : List Bracket → List (List Identifier) → Prop where
  | entry {ks : List (List Identifier)} (known : ∀ j ∈ ks.flatten, m.Entry j ∨ ∃ v ∈ declared, j = m.nameFor v)
      (all : ∀ v, m.isEntry v = true → m.nameFor v ∈ ks.flatten) : Fit m declared [] ks
  | scope {id : Nat} {B : List Bracket} {ks : List (List Identifier)} (below : Fit m declared B ks)
      (settled : Settled B) (here : ∀ v ∈ declared, m.home v = id → m.nameFor v ∈ ks.flatten) :
      Fit m declared (.scope id :: B) ks
  | block {B : List Bracket} {k : List Identifier} {ks : List (List Identifier)} (below : Fit m declared B ks)
      (settled : Settled B) (known : ∀ j ∈ k, ∃ v ∈ declared, j = m.nameFor v) :
      Fit m declared (.block :: B) (k :: ks)
  | clause {c : Catcher} {B : List Bracket} {ks : List (List Identifier)} (below : Fit m declared B ks)
      (settled : Settled B) : Fit m declared (.clause c :: B) ([m.caughtAs c] :: ks)
  | inside {c : Catcher} {id : Nat} {B : List Bracket} {k : List Identifier} {ks : List (List Identifier)}
      (below : Fit m declared B ks) (settled : Settled B)
      (known : ∀ j ∈ k, j = m.caughtAs c ∨ ∃ v ∈ declared, j = m.nameFor v) (own : m.caughtAs c ∈ k)
      (here : ∀ v ∈ declared, m.home v = id → m.nameFor v ∈ (k :: ks).flatten) :
      Fit m declared (.scope id :: .handler c :: B) (k :: ks)
  | spent {c : Catcher} {B : List Bracket} {k : List Identifier} {ks : List (List Identifier)}
      (below : Fit m declared B ks) (settled : Settled B) : Fit m declared (.handler c :: B) (k :: ks)

namespace Fit

variable {m : Lifted} {D : List Nat} {B S : List Bracket} {ks : List (List Identifier)} {k : List Identifier} {v id : Nat}
  {j : Identifier} {c : Catcher}

theorem grow (h : Fit m D B ks) (hv : m.home v ∉ scopeIds B) : Fit m (v :: D) B ks := by
  have hknown {j : Identifier} (hj : ∃ w ∈ D, j = m.nameFor w) : ∃ w ∈ v :: D, j = m.nameFor w := by
    obtain ⟨w, hw, rfl⟩ := hj
    exact ⟨w, List.mem_cons_of_mem _ hw, rfl⟩
  induction h with
  | entry known all => exact .entry (fun j hj => (known j hj).imp_right hknown) all
  | scope below settled here ih =>
      rw [scopeIds_scope, List.mem_cons, not_or] at hv
      exact .scope (ih hv.2) settled (List.forall_mem_cons.mpr ⟨fun he => absurd he hv.1, here⟩)
  | block below settled known ih => exact .block (ih hv) settled fun j hj => hknown (known j hj)
  | clause below settled ih => exact .clause (ih hv) settled
  | inside below settled known own here ih =>
      rw [scopeIds_scope, scopeIds_handler, List.mem_cons, not_or] at hv
      exact .inside (ih hv.2) settled (fun j hj => (known j hj).imp_right hknown) own
        (List.forall_mem_cons.mpr ⟨fun he => absurd he hv.1, here⟩)
  | spent below settled ih => exact .spent (ih hv) settled

theorem put (h : Fit m D B ks) (hB : ∀ c, B.head? ≠ some (.clause c)) (hv : m.home v ∉ scopeIds B) :
    Fit m (v :: D) B (Scopes.put (m.nameFor v) ks) := by
  have hself : ∃ w ∈ v :: D, m.nameFor v = m.nameFor w := ⟨v, List.mem_cons_self, rfl⟩
  have hknown {j : Identifier} (hj : ∃ w ∈ D, j = m.nameFor w) : ∃ w ∈ v :: D, j = m.nameFor w := by
    obtain ⟨w, hw, rfl⟩ := hj
    exact ⟨w, List.mem_cons_of_mem _ hw, rfl⟩
  induction h with
  | entry known all =>
      refine .entry (fun j hj => ?_) fun w hw => ?_
      · rw [Scopes.flatten_put, List.mem_cons] at hj
        rcases hj with rfl | hj
        · exact .inr hself
        · exact (known j hj).imp_right hknown
      · rw [Scopes.flatten_put]
        exact List.mem_cons_of_mem _ (all w hw)
  | @scope id B ks below settled here ih =>
      rw [scopeIds_scope, List.mem_cons, not_or] at hv
      have hsettled : ∀ c, B.head? ≠ some (.clause c) := by
        rintro c hc
        cases B with
        | nil => cases hc
        | cons x B =>
            cases hc
            exact settled
      refine .scope (ih hsettled hv.2) settled fun w hw he => ?_
      rw [Scopes.flatten_put]
      rcases List.mem_cons.mp hw with rfl | hw
      · exact List.mem_cons_self
      · exact List.mem_cons_of_mem _ (here w hw he)
  | block below settled known =>
      exact .block (below.grow hv) settled (List.forall_mem_cons.mpr ⟨hself, fun j hj => hknown (known j hj)⟩)
  | clause => exact absurd rfl (hB _)
  | inside below settled known own here =>
      rw [scopeIds_scope, scopeIds_handler, List.mem_cons, not_or] at hv
      refine .inside (below.grow hv.2) settled
        (List.forall_mem_cons.mpr ⟨.inr hself, fun j hj => (known j hj).imp_right hknown⟩)
        (List.mem_cons_of_mem _ own) ?_
      refine List.forall_mem_cons.mpr ⟨fun he => absurd he hv.1, fun w hw he => ?_⟩
      exact List.mem_cons_of_mem _ (here w hw he)
  | spent below settled => exact .spent (below.grow hv) settled

theorem declare (h : Fit m D (.scope id :: B) ks) (hv : m.home v = id) (hid : id ∉ scopeIds B) :
    Fit m (v :: D) (.scope id :: B) (Scopes.put (m.nameFor v) ks) := by
  have hhome : m.home v ∉ scopeIds B := hv ▸ hid
  have hhere {ks : List (List Identifier)} (here : ∀ w ∈ D, m.home w = id → m.nameFor w ∈ ks.flatten) :
      ∀ w ∈ v :: D, m.home w = id → m.nameFor w ∈ (Scopes.put (m.nameFor v) ks).flatten := by
    rw [Scopes.flatten_put]
    exact List.forall_mem_cons.mpr ⟨fun _ => List.mem_cons_self, fun w hw he => List.mem_cons_of_mem _ (here w hw he)⟩
  cases h with
  | scope below settled here =>
      refine .scope (below.put (fun c hc => ?_) hhome) settled (hhere here)
      cases B with
      | nil => cases hc
      | cons x B =>
          cases hc
          exact settled
  | inside below settled known own here =>
      refine .inside (below.grow hhome) settled (List.forall_mem_cons.mpr ⟨.inr ⟨v, List.mem_cons_self, rfl⟩,
        fun j hj => (known j hj).imp_right fun ⟨w, hw, he⟩ => ⟨w, List.mem_cons_of_mem _ hw, he⟩⟩)
        (List.mem_cons_of_mem _ own) (hhere here)

theorem known (h : Fit m D B ks) (hB : Settled B) (hj : j ∈ ks.flatten) :
    m.Entry j ∨ (∃ v ∈ D, j = m.nameFor v) ∨ ∃ c ∈ catchers B, some c.key ∈ frames B ∧ j = m.caughtAs c := by
  induction h with
  | entry known all => exact (known j hj).imp_right .inl
  | scope below settled here ih =>
      rw [frames_scope settled]
      refine (ih settled hj).imp_right fun hj => hj.imp_right ?_
      exact fun ⟨c, hc, hframe, he⟩ => ⟨c, hc, List.mem_cons_of_mem _ hframe, he⟩
  | block below settled known ih =>
      rcases List.mem_append.mp hj with hj | hj
      · exact .inr (.inl (known j hj))
      · exact ih settled hj
  | clause | spent => exact hB.elim
  | inside below settled known own here ih =>
      rcases List.mem_append.mp hj with hj | hj
      · rcases known j hj with rfl | hj
        · exact .inr (.inr ⟨_, List.mem_cons_self, List.mem_cons_self, rfl⟩)
        · exact .inr (.inl hj)
      · refine (ih settled hj).imp_right fun hj => hj.imp_right ?_
        exact fun ⟨c, hc, hframe, he⟩ => ⟨c, List.mem_cons_of_mem _ hc, List.mem_cons_of_mem _ hframe, he⟩

theorem entry_mem (h : Fit m D B ks) (hv : m.isEntry v = true) : m.nameFor v ∈ ks.flatten := by
  induction h with
  | entry known all => exact all v hv
  | scope below settled here ih => exact ih
  | block below settled known ih | clause below settled ih | inside below settled known own here ih
  | spent below settled ih => exact List.mem_append_right _ ih

theorem caught_mem (h : Fit m D B ks) (hv : some (.var v) ∈ frames B) : m.nameFor v ∈ ks.flatten := by
  induction h with
  | entry => cases hv
  | scope below settled here ih =>
      rw [frames_scope settled] at hv
      exact ih ((List.mem_cons.mp hv).resolve_left nofun)
  | block below settled known ih | clause below settled ih | spent below settled ih =>
      exact List.mem_append_right _ (ih hv)
  | @inside c id B k ks below settled known own here ih =>
      rcases List.mem_cons.mp hv with hv | hv
      · cases c with
        | var w =>
            cases hv
            exact List.mem_append_left _ own
        | block => cases hv
      · exact List.mem_append_right _ (ih hv)

theorem declared_mem (h : Fit m D B ks) (hv : v ∈ D) (hhome : m.home v ∈ scopeIds B) : m.nameFor v ∈ ks.flatten := by
  induction h with
  | entry => cases hhome
  | scope below settled here ih => exact (List.mem_cons.mp hhome).elim (here v hv) ih
  | block below settled known ih | clause below settled ih | spent below settled ih =>
      exact List.mem_append_right _ (ih hhome)
  | inside below settled known own here ih =>
      rcases List.mem_cons.mp hhome with he | hhome
      · exact here v hv he
      · exact List.mem_append_right _ (ih hhome)

theorem leave (h : Fit m D (.scope id :: B) ks) : Fit m D B ks := by
  cases h with
  | scope below settled here => exact below
  | inside below settled known own here => exact .spent below settled

theorem closes {x : Bracket} (h : Fit m D (x :: B) ks) (hx : x = .block ∨ ∃ c, x = .handler c) :
    Fit m D B ks.tail ∧ Settled B := by
  rcases hx with rfl | ⟨c, rfl⟩
  · cases h with
    | block below settled known => exact ⟨below, settled⟩
  · cases h with
    | spent below settled => exact ⟨below, settled⟩

theorem opens (h : Fit m D B ks) (hB : Settled B) : Fit m D (.block :: B) ([] :: ks) := .block h hB nofun

theorem enter (h : Fit m D B ks) (hS : Enters id B S) (hfree : ∀ v ∈ D, m.home v ≠ id) : Fit m D S ks := by
  cases hS with
  | settled hB => exact .scope h hB fun v hv he => absurd he (hfree v hv)
  | clause c S =>
      cases h with
      | clause below settled =>
          exact .inside below settled (List.forall_mem_singleton.mpr (.inl rfl)) List.mem_cons_self
            fun v hv he => absurd he (hfree v hv)

theorem frames_tail (h : Fit m D (.scope id :: B) ks) : (frames (.scope id :: B)).tail = frames B ∧ expected B = none := by
  cases h with
  | scope below settled here => exact ⟨by rw [frames_scope settled, List.tail_cons], expected_eq_none settled⟩
  | inside => exact ⟨rfl, rfl⟩

end Fit

end JavaLift.Source
