import JavaLift.Flow.Build
import JavaLift.Proofs.Source.Declarations
import JavaLift.Proofs.Source.Entry
import JavaLift.Typing.Inference

namespace JavaLift.Source

theorem openingSigns_eq (cs : List Char) :
    ∃ t, openingSigns cs = .text t :: if cs.getLast? = some '\x7b' then [.opens] else [] := by
  unfold openingSigns
  split_ifs
  · exact ⟨_, rfl⟩
  · exact ⟨_, rfl⟩

theorem lineSigns_eq (s : String) : ∃ t, lineSigns s =
    (if closesBlock s then [.closes] else []) ++ .text t :: if opensBlock s then [.opens] else [] := by
  unfold lineSigns closesBlock opensBlock
  split
  next cs h =>
    obtain ⟨t, ht⟩ := openingSigns_eq cs
    refine ⟨t, ?_⟩
    rw [ht, h]
    cases cs with
    | nil => rfl
    | cons c cs => simp
  next cs hcs =>
    obtain ⟨t, ht⟩ := openingSigns_eq s.toList
    refine ⟨t, ?_⟩
    have hhead : (s.toList.head? == some '\x7d') = false := by
      cases h : s.toList with
      | nil => rfl
      | cons c cs =>
          rw [List.head?_cons, beq_eq_false_iff_ne]
          rintro ⟨⟩
          exact hcs cs h
    rw [ht, hhead]
    simp

namespace Draft

variable {m : Lifted} {d : Draft} {p : Phrase} {s : Scopes} {ps : List Piece} {v : Nat}

theorem event_keeps (e : Event) (h : ∀ r v, e = .read r → r.var = some v → (d.namer.names.lookup v).isSome) :
    (event m d e).namer = d.namer ∧ (event m d e).declared = d.declared := by
  have hremark (r : Diagnostic) : (d.remark r).namer = d.namer ∧ (d.remark r).declared = d.declared := by
    unfold remark
    split_ifs <;> exact ⟨rfl, rfl⟩
  cases e with
  | remark r => exact hremark r
  | read r =>
      rw [event]
      split
      next v hv => exact ⟨Namer.ensure_eq_self _ (h r v rfl hv), rfl⟩
      next => exact hremark _

theorem phrase_keeps (hnamer : d.namer = m.survey.namer) (h : ∀ v ∈ p.reads, m.Named v) :
    (p.events.foldl (event m) d).namer = m.survey.namer ∧ (p.events.foldl (event m) d).declared = d.declared := by
  have hnamed : ∀ r v, .read r ∈ p.events → r.var = some v → (m.survey.namer.names.lookup v).isSome :=
    fun r v hr hv => h v (List.mem_filterMap.mpr ⟨_, hr, hv⟩)
  generalize p.events = es at hnamed
  induction es generalizing d with
  | nil => exact ⟨hnamer, rfl⟩
  | cons e es ih =>
      obtain ⟨hn, hd⟩ := event_keeps (m := m) (d := d) e fun r v he hv => by
        rw [hnamer]
        exact hnamed r v (he ▸ List.mem_cons_self) hv
      obtain ⟨hn', hd'⟩ := ih (hn.trans hnamer) fun r v hr hv => hnamed r v (List.mem_cons_of_mem _ hr) hv
      exact ⟨hn', hd'.trans hd⟩

theorem scoped_pieces (hp : p.Covered) (hps : ps ⊆ p.pieces) (hnamer : d.namer = m.survey.namer)
    (h : ∀ v ∈ p.reads, m.nameFor v ∈ s.blocks.flatten) :
    s.Scoped (ps.map d.pieceSign) ∧ s.afterAll (ps.map d.pieceSign) = s := by
  have hsigns : ∀ x ∈ ps.map d.pieceSign,
      (∃ t, x = .text t) ∨ ∃ v name, x = .occurs v name ∧ ⟨some v, name⟩ ∈ s.blocks.flatten := by
    intro x hx
    obtain ⟨y, hy, rfl⟩ := List.mem_map.mp hx
    cases y with
    | text t => exact .inl ⟨t, rfl⟩
    | name r =>
        rw [pieceSign]
        cases hr : r.var with
        | none => exact .inl ⟨_, rfl⟩
        | some v =>
            rw [hnamer]
            exact .inr ⟨v, _, rfl, h v (hp.reads (hps hy) hr)⟩
  refine ⟨Scopes.scoped_of_forall hsigns, Scopes.afterAll_eq_self fun x hx => (hsigns x hx).imp_right ?_⟩
  rintro ⟨v, name, he, -⟩
  exact ⟨v, name, he⟩

theorem assigned_keeps {result : Register} {value : Phrase} (hnamer : d.namer = m.survey.namer)
    (h : ∀ v ∈ value.reads, m.Named v) (hresult : ∀ v ∈ result.var, m.Named v) :
    (d.assigned m result value).namer = m.survey.namer ∧ (d.assigned m result value).declared = d.declared := by
  obtain ⟨hn, hd⟩ := phrase_keeps hnamer h
  unfold assigned
  cases hv : result.var with
  | none => exact ⟨hn, hd⟩
  | some v =>
      refine ⟨?_, hd⟩
      rw [Option.elim_some, hn]
      exact Namer.ensure_eq_self _ (hresult v hv)

variable {style : Style} {offset : Nat} {comment : Bool} {signs : List Sign}

theorem scoped_comment : s.Scoped (signs ++ commentSigns style offset comment) ↔ s.Scoped signs := by
  unfold commentSigns
  split_ifs <;> simp

theorem afterAll_comment : s.afterAll (signs ++ commentSigns style offset comment) = s.afterAll signs := by
  unfold commentSigns
  split_ifs <;> simp

theorem scoped_markedSigns {c : Marked} :
    s.Scoped (d.markedSigns m style c) ↔ s.Scoped ((c.phrase.events.foldl (event m) d).phraseSigns c.phrase) := by
  rw [markedSigns, scoped_comment]
  split_ifs <;> simp

theorem afterAll_markedSigns {c : Marked} :
    s.afterAll (d.markedSigns m style c) = s.afterAll ((c.phrase.events.foldl (event m) d).phraseSigns c.phrase) := by
  rw [markedSigns, afterAll_comment]
  split_ifs <;> simp

def valueSigns (d : Draft) (style : Style) (offset : Nat) (p : Phrase) : List Sign :=
  .text " = " :: p.pieces.map d.pieceSign ++ .text ";" :: commentSigns style offset true

theorem scoped_value (style : Style) (offset : Nat) (hp : p.Covered) (hnamer : d.namer = m.survey.namer)
    (h : ∀ v ∈ p.reads, m.nameFor v ∈ s.blocks.flatten) :
    s.Scoped (d.valueSigns style offset p) ∧ s.afterAll (d.valueSigns style offset p) = s := by
  obtain ⟨hscoped, hafter⟩ := scoped_pieces hp (List.Subset.refl _) hnamer h
  rw [valueSigns, ← List.singleton_append (x := Sign.text ";"), ← List.append_assoc, scoped_comment, afterAll_comment]
  simp [hscoped, hafter]

theorem assign_namer (style : Style) (ds : List (Nat × Declaration)) (head : Head) (result : Register) (value : Phrase) :
    (d.assign m style ds head result value).namer = (d.assigned m result value).namer := by
  rw [assign_eq]
  split
  · rfl
  · split_ifs <;> rfl

/-- An assignment declares its target, or else names it or is not written at all. -/
theorem assign_cases {e : Draft} {result : Register} {value : Phrase} (he : d.assigned m result value = e) (style : Style)
    (ds : List (Nat × Declaration)) (head : Head) :
    (∃ v, result.var = some v ∧ e.declaresHere ds v = true ∧
      d.assignSigns m style ds head result value =
        .text (lead e.writer) :: e.declareSigns m v ++ e.valueSigns style head.offset value ∧
      (d.assign m style ds head result value).declared = v :: e.declared) ∨
    (∀ v ∈ result.var, e.declaresHere ds v = false) ∧
      (d.assignSigns m style ds head result value = [] ∨
        d.assignSigns m style ds head result value =
          .text (lead e.writer) :: e.pieceSign (.name result) :: e.valueSigns style head.offset value) ∧
      (d.assign m style ds head result value).declared = e.declared := by
  rw [assign_eq, assignSigns, he]
  cases hv : result.var.filter (e.declaresHere ds) with
  | some v =>
      obtain ⟨hresult, hhere⟩ := Option.filter_eq_some_iff.mp hv
      exact .inl ⟨v, hresult, hhere, rfl, rfl⟩
  | none =>
      refine .inr ⟨fun v hresult => Bool.eq_false_iff.mpr (Option.filter_eq_none_iff.mp hv v hresult), ?_⟩
      dsimp only
      split_ifs
      · exact ⟨.inl rfl, rfl⟩
      · exact ⟨.inr rfl, rfl⟩

end Draft

namespace Stage

variable {m : Lifted} {style : Style} {done rest : List Touch} {d : Draft} {D : List Nat} {s : Scopes} {S S' : List Bracket}
  {p : Phrase} {id : Nat} {x : Item}

theorem statement (hclear : m.Clear) (h : Stage m done (p.reads.map .read ++ rest) D [] s S) (hp : p.Covered)
    (hnamer : d.namer = m.survey.namer) (hf : p.isFoot = false) (hh : p.isHead = false) :
    s.Scoped (d.phraseSigns p) ∧ Stage m (done ++ p.reads.map .read) rest D [] (s.afterAll (d.phraseSigns p)) S := by
  obtain ⟨hvisible, hstage⟩ := h.reads hclear
  obtain ⟨hscoped, hafter⟩ := Draft.scoped_pieces hp (List.Subset.refl _) hnamer hvisible
  have hsigns : d.phraseSigns p = p.pieces.map d.pieceSign := by simp [Draft.phraseSigns, hf, hh]
  rw [hsigns, hafter]
  exact ⟨hscoped, hstage⟩

theorem head (hclear : m.Clear) (h : Stage m done (p.reads.map .read ++ rest) D [] s S) (hp : p.Covered)
    (hnamer : d.namer = m.survey.namer) (hf : p.isFoot = false) (hh : p.isHead = true) (hS : Settled S) :
    s.Scoped (d.phraseSigns p) ∧
      Stage m (done ++ p.reads.map .read) rest D [] (s.afterAll (d.phraseSigns p)) (.block :: S) := by
  obtain ⟨hvisible, hstage⟩ := h.reads hclear
  obtain ⟨hscoped, hafter⟩ := Draft.scoped_pieces hp (List.dropLast_subset _) hnamer hvisible
  have hsigns : d.phraseSigns p = p.pieces.dropLast.map d.pieceSign ++ [.text ") ", .opens] := by
    simp only [Draft.phraseSigns, hf, hh, Bool.false_eq_true, if_false, if_true]
  rw [hsigns, Scopes.scoped_append, Scopes.afterAll_append, hafter]
  exact ⟨⟨hscoped, by simp⟩, hstage.opens hS⟩

theorem foot (hclear : m.Clear) (h : Stage m done (p.reads.map .read ++ rest) D [] s (.block :: S)) (hp : p.Covered)
    (hnamer : d.namer = m.survey.namer) (hf : p.isFoot = true) :
    s.Scoped (d.phraseSigns p) ∧ Stage m (done ++ p.reads.map .read) rest D [] (s.afterAll (d.phraseSigns p)) S := by
  obtain ⟨hvisible, hstage⟩ := (h.closes (.inl rfl)).1.reads hclear
  obtain ⟨hscoped, hafter⟩ := Draft.scoped_pieces hp (List.tail_subset _) hnamer hvisible
  have hsigns : d.phraseSigns p = .closes :: .text " while (" :: p.pieces.tail.map d.pieceSign := by
    simp [Draft.phraseSigns, hf]
  rw [hsigns, Scopes.afterAll_cons, Scopes.afterAll_cons, Scopes.after_text, hafter]
  exact ⟨⟨trivial, trivial, hscoped⟩, hstage⟩

theorem marked {c : Marked} (hclear : m.Clear) (hc : Moves (.marked c) S S')
    (h : Stage m done (c.phrase.reads.map .read ++ rest) d.declared [] s S) (hnamer : d.namer = m.survey.namer) :
    s.Scoped (d.markedSigns m style c) ∧
      Stage m (done ++ c.phrase.reads.map .read) rest (d.marked m style c).declared []
        (s.afterAll (d.markedSigns m style c)) S' ∧ (d.marked m style c).namer = m.survey.namer := by
  have hnamed : ∀ v ∈ c.phrase.reads, m.Named v := fun v hv => by
    refine Lifted.named_of_mem (t := .read v) ?_ rfl
    rw [h.whole]
    exact List.mem_append_right _ (List.mem_append_left _ (List.mem_map_of_mem hv))
  obtain ⟨hn, hd⟩ := Draft.phrase_keeps hnamer hnamed
  rw [Draft.scoped_markedSigns, Draft.afterAll_markedSigns]
  rw [← hd] at h
  cases hc with
  | statement hp hf hh hS =>
      obtain ⟨hscoped, hstage⟩ := h.statement hclear hp hn hf hh
      exact ⟨hscoped, hstage, hn⟩
  | head hp hf hh hS =>
      obtain ⟨hscoped, hstage⟩ := h.head hclear hp hn hf hh hS
      exact ⟨hscoped, hstage, hn⟩
  | foot S hp hf =>
      obtain ⟨hscoped, hstage⟩ := h.foot hclear hp hn hf
      exact ⟨hscoped, hstage, hn⟩

theorem line {t : String} (ht : Moves (.line t) S S') (h : Stage m done rest D [] s S) :
    s.Scoped (lineSigns t) ∧ Stage m done rest D [] (s.afterAll (lineSigns t)) S' := by
  obtain ⟨u, hu⟩ := lineSigns_eq t
  rw [hu]
  cases ht with
  | line S hc ho => simpa [hc, ho] using h
  | lineOpens hc ho hS => simpa [hc, ho] using h.opens hS
  | lineCloses S hc ho => simpa [hc, ho] using (h.closes (.inl rfl)).1
  | lineEnds c S hc ho => simpa [hc, ho] using (h.closes (.inr ⟨c, rfl⟩)).1
  | lineTurns S hc ho =>
      obtain ⟨hclosed, hS⟩ := h.closes (.inl rfl)
      simpa [hc, ho] using hclosed.opens hS

theorem declares_target {v : Nat} (hclear : m.Clear) (h : Stage m done (.assign v :: rest) D [] s (.scope id :: S))
    (hplan : m.survey.declarations.lookup v = some .firstAssignment) (hv : v ∉ D) :
    s.Admits (.declares (m.nameFor v)) ∧
      Stage m (done ++ [.assign v]) rest (v :: D) [] (s.after (.declares (m.nameFor v))) (.scope id :: S) := by
  obtain ⟨o, ho, hplace⟩ := Lifted.lookup_declarations.mp hplan
  have hplanned : (m.survey.occurrences.lookup v).isSome := by rw [ho, Option.isSome_some]
  obtain ⟨hentry, hcaught⟩ := hclear.apart_of_planned hplanned
  have hhome : m.home v = id := by
    obtain ⟨o', ho', -, hhere⟩ := occurrence (v := v) (a := true) h hentry hcaught
    obtain rfl : o' = o := Option.some.inj (ho'.symm.trans ho)
    rw [Lifted.home_eq ho, (hhere hplace hv).2, scopeIds_scope, List.reverse_cons, List.getLast?_concat]
    rfl
  have hdeclared : Stage m done (.assign v :: rest) (v :: D) [] _ _ := h.declare hplanned hhome nofun
  refine ⟨h.admits hclear trivial hplanned hv, ?_⟩
  exact (occur (v := v) (a := true) hclear hdeclared fun _ _ _ _ => List.mem_cons_self).2

theorem names_target {result : Register} (hclear : m.Clear)
    (h : Stage m done (result.var.toList.map .assign ++ rest) d.declared [] s S) (hnamer : d.namer = m.survey.namer)
    (hlater : ∀ v ∈ result.var, d.declaresHere m.survey.declarations v = false) :
    s.Admits (d.pieceSign (.name result)) ∧ s.after (d.pieceSign (.name result)) = s ∧
      Stage m (done ++ result.var.toList.map .assign) rest d.declared [] s S := by
  rw [Draft.pieceSign]
  cases hresult : result.var with
  | none =>
      rw [hresult] at h
      rw [Option.toList_none, List.map_nil, List.append_nil]
      exact ⟨trivial, rfl, h⟩
  | some v =>
      rw [hresult] at h
      have hnow : ∀ o, m.survey.occurrences.lookup v = some o → o.declaration = .firstAssignment → v ∈ d.declared := by
        intro o ho hplace
        by_contra hv
        have hplan := Lifted.lookup_declarations.mpr ⟨o, ho, hplace⟩
        have hhere := hlater v hresult
        simp [Draft.declaresHere, hplan, hv] at hhere
      obtain ⟨hin, hafter⟩ := occur (v := v) (a := true) hclear h fun _ => hnow
      rw [Option.elim_some, hnamer]
      exact ⟨hin, rfl, hafter⟩

theorem assign {head : Head} {result : Register} {value : Phrase} (hclear : m.Clear) (hp : value.Covered)
    (h : Stage m done ((value.reads.map .read ++ result.var.toList.map .assign) ++ rest) d.declared [] s (.scope id :: S))
    (hnamer : d.namer = m.survey.namer) :
    s.Scoped (d.assignSigns m style m.survey.declarations head result value) ∧
      Stage m (done ++ (value.reads.map .read ++ result.var.toList.map .assign)) rest
        (d.assign m style m.survey.declarations head result value).declared []
        (s.afterAll (d.assignSigns m style m.survey.declarations head result value)) (.scope id :: S) ∧
      (d.assign m style m.survey.declarations head result value).namer = m.survey.namer := by
  have hmem {t : Touch} (ht : t ∈ value.reads.map .read ++ result.var.toList.map .assign) : t ∈ m.touched := by
    rw [h.whole]
    exact List.mem_append_right _ (List.mem_append_left _ ht)
  have hreads : ∀ v ∈ value.reads, m.Named v := fun v hv =>
    Lifted.named_of_mem (hmem (List.mem_append_left _ (List.mem_map_of_mem hv))) rfl
  have hresult : ∀ v ∈ result.var, m.Named v := fun v hv =>
    Lifted.named_of_mem (hmem (List.mem_append_right _ (List.mem_map_of_mem (Option.mem_toList.mpr hv)))) rfl
  obtain ⟨hn, hd⟩ := Draft.assigned_keeps (m := m) (d := d) hnamer hreads hresult
  rw [← hd, List.append_assoc] at h
  obtain ⟨hvisible, hstage⟩ := h.reads hclear
  have hcases := Draft.assign_cases (rfl : d.assigned m result value = _) style m.survey.declarations head
  rw [Draft.assign_namer, ← List.append_assoc]
  generalize d.assigned m result value = e at hn hstage hcases
  -- What is declared here stays in force for the value.
  have hvalue {s' : Scopes} (hs : ∀ j ∈ s.blocks.flatten, j ∈ s'.blocks.flatten) :=
    Draft.scoped_value style head.offset hp hn fun v hv => hs _ (hvisible v hv)
  rcases hcases with ⟨v, hv, hhere, hsigns, hdeclared⟩ | ⟨hlater, hsigns, hdeclared⟩
  · obtain ⟨hplan, hfresh⟩ := Bool.and_eq_true_iff.mp hhere
    have hname : e.identifier v = m.nameFor v := by rw [Draft.identifier, hn, Lifted.nameFor]
    rw [hv] at hstage
    obtain ⟨hadmits, hafter⟩ := hstage.declares_target hclear (eq_of_beq hplan) (by simpa using hfresh)
    have hkept : ∀ j ∈ s.blocks.flatten, j ∈ (s.after (.declares (m.nameFor v))).blocks.flatten := fun j hj => by
      rw [Scopes.after, Scopes.flatten_put]
      exact List.mem_cons_of_mem _ hj
    have hput := hvalue hkept
    rw [hsigns, hdeclared, Draft.declareSigns, hname, hv]
    refine ⟨⟨trivial, trivial, hadmits, hput.1⟩, ?_, hn⟩
    rwa [← hput.2] at hafter
  · obtain ⟨hadmits, hsame, hafter⟩ := hstage.names_target hclear hn hlater
    have hin := hvalue fun _ hj => hj
    rw [hdeclared]
    rcases hsigns with hsigns | hsigns
    · rw [hsigns]
      exact ⟨trivial, hafter, hn⟩
    · rw [hsigns, Scopes.afterAll_cons, Scopes.after_text, Scopes.afterAll_cons, hsame, hin.2, Scopes.scoped_cons,
        Scopes.after_text, Scopes.scoped_cons, hsame]
      exact ⟨⟨trivial, hadmits, hin.1⟩, hafter, hn⟩

theorem handler {type : Ty} {c : Catcher} {offset : Nat} (hclear : m.Clear) (hx : Moves (.handler offset type c) S S')
    (h : Stage m done (.clause c :: rest) d.declared [] s S) (hnamer : d.namer = m.survey.namer) :
    s.Scoped (d.handlerSigns m type c) ∧
      Stage m (done ++ [.clause c]) rest (d.handler m style offset type c).declared []
        (s.afterAll (d.handlerSigns m type c)) S' ∧ (d.handler m style offset type c).namer = m.survey.namer := by
  have hmem : .clause c ∈ m.touched := by
    rw [h.whole]
    exact List.mem_append_right _ List.mem_cons_self
  have hkeeps : (d.catcher m c).1.namer = m.survey.namer ∧ (d.catcher m c).1.declared = d.declared := by
    cases c with
    | var v =>
        refine ⟨?_, rfl⟩
        rw [← hnamer]
        exact Namer.ensure_eq_self _ (hnamer ▸ Lifted.named_of_mem hmem rfl)
    | block b type =>
        refine ⟨?_, rfl⟩
        rw [← hnamer]
        exact Namer.ensureCaught_eq_self _ (hnamer ▸ Lifted.caughtName_of_mem hmem)
  have hcaught : (d.catcher m c).1.caught c = m.caughtAs c := by
    cases c <;> simp only [Draft.caught, hkeeps.1] <;> rfl
  obtain ⟨x, U, rfl, rfl, hclosing⟩ :
      ∃ x U, S = x :: U ∧ S' = .clause c :: U ∧ (x = .block ∨ ∃ c, x = .handler c) := by
    cases hx with
    | handler _ _ _ U => exact ⟨_, U, rfl, rfl, .inl rfl⟩
    | nextHandler _ _ before _ U => exact ⟨_, U, rfl, rfl, .inr ⟨before, rfl⟩⟩
  obtain ⟨hclosed, hU⟩ := h.closes hclosing
  have hadmits := hclosed.admits_clause hclear hU
  have hclause := hclosed.clause hU
  simp only [Draft.handlerSigns, hcaught]
  rw [Draft.handler, Draft.catcher_eq]
  refine ⟨⟨trivial, trivial, trivial, hadmits, trivial, trivial, trivial⟩, ?_, hkeeps.1⟩
  rwa [← hkeeps.2] at hclause

theorem heads_declared {ds : List (Nat × Declaration)} (hclear : m.Clear)
    (h : Stage m done rest d.declared (ds.map Prod.fst) s (.scope id :: S)) (hnodup : (ds.map Prod.fst).Nodup)
    (hds : ∀ v ∈ ds.map Prod.fst, v ∈ m.due id ∧ v ∉ d.declared) (hnamer : d.namer = m.survey.namer) :
    s.Scoped (written (Draft.declareAtSigns m) (Draft.declareAt m) d ds) ∧
      Stage m done rest (ds.foldl (Draft.declareAt m) d).declared []
        (s.afterAll (written (Draft.declareAtSigns m) (Draft.declareAt m) d ds)) (.scope id :: S) ∧
      (ds.foldl (Draft.declareAt m) d).namer = m.survey.namer := by
  induction ds generalizing d s with
  | nil => exact ⟨trivial, h, hnamer⟩
  | cons y ds ih =>
      obtain ⟨v, place⟩ := y
      rw [List.map_cons] at h hnodup hds
      obtain ⟨⟨hdue, hv⟩, hrest⟩ := List.forall_mem_cons.mp hds
      obtain ⟨o, ho, hplace⟩ := Lifted.mem_due.mp hdue
      have hplanned : (m.survey.occurrences.lookup v).isSome := by rw [ho, Option.isSome_some]
      have hensured : d.namer.ensure v (m.typeOf v) = m.survey.namer := by
        rw [hnamer]
        exact Namer.ensure_eq_self _ (Lifted.named_of_planned hplanned)
      have hname : (d.ensured m v).identifier v = m.nameFor v := by
        simp only [Draft.identifier, Draft.ensured, hensured, Lifted.nameFor]
      have hadmits := h.admits hclear trivial hplanned hv
      have hstage := h.declare hplanned (Lifted.home_of_scope ho hplace) fun _ hw => List.mem_cons.mp hw
      obtain ⟨hv', hnodup⟩ := List.nodup_cons.mp hnodup
      obtain ⟨hscoped, hafter, hn⟩ := ih (d := Draft.declareAt m d (v, place)) hstage hnodup
        (fun w hw => ⟨(hrest w hw).1, List.not_mem_cons_of_ne_of_not_mem (fun he => hv' (he ▸ hw)) (hrest w hw).2⟩)
        hensured
      rw [written, Draft.declareAtSigns, Draft.declareSigns, hname]
      exact ⟨⟨trivial, trivial, hadmits, trivial, hscoped⟩, hafter, hn⟩

theorem openScope (hclear : m.Clear) (hS : Enters id S S') (h : Stage m done (.enter id :: rest) d.declared [] s S)
    (hnamer : d.namer = m.survey.namer) :
    s.Scoped (d.itemSigns m style m.survey.declarations (.openScope id)) ∧
      Stage m (done ++ [.enter id]) rest (d.openScope m m.survey.declarations id).declared []
        (s.afterAll (d.itemSigns m style m.survey.declarations (.openScope id))) S' ∧
      (d.openScope m m.survey.declarations id).namer = m.survey.namer := by
  have hentered := h.enter hS
  obtain ⟨U, rfl⟩ : ∃ U, S' = .scope id :: U := by cases hS <;> exact ⟨_, rfl⟩
  rw [Draft.openScope_eq]
  exact hentered.heads_declared hclear (m.nodup_due id) (fun v hv => ⟨hv, h.not_declared hv⟩) hnamer

theorem step (style : Style) (hclear : m.Clear) (hx : Moves x S S') (h : Stage m done (x.touches ++ rest) d.declared [] s S)
    (hnamer : d.namer = m.survey.namer) :
    s.Scoped (d.itemSigns m style m.survey.declarations x) ∧
      Stage m (done ++ x.touches) rest (d.item m style m.survey.declarations x).declared []
        (s.afterAll (d.itemSigns m style m.survey.declarations x)) S' ∧
      (d.item m style m.survey.declarations x).namer = m.survey.namer := by
  cases x with
  | indent | dedent =>
      cases hx
      rw [← List.append_nil done] at h
      exact ⟨trivial, h, hnamer⟩
  | label b name =>
      cases hx
      rw [← List.append_nil done] at h
      simp only [Draft.item, Draft.itemSigns, Draft.label]
      split_ifs
      · exact ⟨trivial, h, hnamer⟩
      · exact ⟨⟨trivial, trivial, trivial⟩, h, hnamer⟩
  | line t =>
      rw [← List.append_nil done] at h
      obtain ⟨hscoped, hstage⟩ := h.line hx
      exact ⟨⟨trivial, hscoped⟩, hstage, hnamer⟩
  | marked c => exact h.marked hclear hx hnamer
  | assign head result value =>
      cases hx with
      | assign _ _ id U hp => exact h.assign hclear hp hnamer
  | handler offset type c => exact h.handler hclear hx hnamer
  | openScope id =>
      have hS : Enters id S S' := by
        cases hx with
        | enter _ hS => exact .settled hS
        | enterClause _ c U => exact .clause c U
      exact h.openScope hclear hS hnamer
  | closeScope =>
      cases hx with
      | leave id hS => exact ⟨trivial, h.leave hS, hnamer⟩

theorem run (style : Style) {xs : List Item} (hclear : m.Clear) (hxs : Nests xs S S')
    (h : Stage m done (touches xs ++ rest) d.declared [] s S) (hnamer : d.namer = m.survey.namer) :
    s.Scoped (written (Draft.itemSigns m style m.survey.declarations) (Draft.item m style m.survey.declarations) d xs) := by
  -- The induction is on the items. What is known of the place before each one carries it.
  induction hxs generalizing done d s with
  | nil S => trivial
  | @cons x xs S S' S'' hx hxs ih =>
      rw [touches_cons, List.append_assoc] at h
      obtain ⟨hscoped, hstage, hn⟩ := h.step style hclear hx hnamer
      rw [written, Scopes.scoped_append]
      exact ⟨hscoped, ih hstage hn⟩

end Stage

theorem written_append {α : Type} (signs : Draft → α → List Sign) (next : Draft → α → Draft) (d : Draft)
    (xs ys : List α) :
    written signs next d (xs ++ ys) = written signs next d xs ++ written signs next (xs.foldl next d) ys := by
  induction xs generalizing d with
  | nil => rfl
  | cons x xs ih => rw [List.cons_append, written, ih, written, List.append_assoc, List.foldl_cons]

namespace Lifted

variable {m : Lifted} {s : Scopes} {style : Style}

theorem Clear.first {rest : List Touch} (hclear : m.Clear) (htouched : m.touched = .enter 0 :: rest) (hbound : s.bound = [])
    (hfit : Fit m [] [] s.blocks) (hseen : ∀ v ∈ s.declared, m.isEntry v = true) :
    Stage m [.enter 0] rest [] (m.due 0) s [.scope 0] where
  whole := htouched
  confined := by
    have hconfined := hclear.confined
    rw [htouched] at hconfined ⊢
    exact hconfined
  rooted := rfl
  bound := hbound
  fit := .scope hfit trivial nofun
  scopes := rfl
  distinct := List.nodup_singleton 0
  opened := List.forall_mem_singleton.mpr List.mem_cons_self
  clauses := nofun
  planned := nofun
  homes := nofun
  heads v o id ho hplace hid := by
    cases List.mem_singleton.mp hid
    exact .inr (mem_due.mpr ⟨o, ho, hplace⟩)
  met _ _ _ _ hmet := by cases hmet
  seen v hv := .inl (hseen v hv)

theorem Clear.scoped_body (hclear : m.Clear) (hbound : s.bound = []) (hfit : Fit m [] [] s.blocks)
    (hseen : ∀ v ∈ s.declared, m.isEntry v = true) : s.Scoped (m.bodySigns style) := by
  have hitems : m.writtenItems =
      .openScope 0 :: (m.bodyItems (hasDeclarations m.survey.declarations) ++ [.closeScope]) := m.items_eq _
  have htouched : m.touched =
      .enter 0 :: (touches (m.bodyItems (hasDeclarations m.survey.declarations)) ++ [.leave]) := by
    rw [← hclear.touches_written, hitems, touches_cons, touches_append]
    rfl
  have hfirst := hclear.first htouched hbound hfit hseen
  obtain ⟨hheads, hstage, hnamer⟩ := hfirst.heads_declared (d := m.firstDraft style) hclear (m.nodup_due 0)
    (fun v hv => ⟨hv, nofun⟩) rfl
  have hbody := hstage.run style hclear (m.nests_body _) hnamer
  rw [bodySigns, hitems, written, written_append, Scopes.scoped_append, Scopes.scoped_append]
  exact ⟨hheads, hbody, trivial⟩

end Lifted

namespace Lifted

variable (signature : Signature) (graph : Graph) (tree : Structured) (typing : Typing) (style : Style)

/-- The text of a method is well scoped where exceptions stay in their handlers. -/
theorem signs_scoped (hinit : signature.isClassInitializer = true → signature.params = [])
    (h : (of signature graph tree typing).Clear) :
    spell ((of signature graph tree typing).signs style) = ((of signature graph tree typing).render style).1.code ∧
      (of signature graph tree typing).receiverScope.Scoped ((of signature graph tree typing).signs style) := by
  refine ⟨spell_signs _ style, ?_⟩
  have hparams : (of signature graph tree typing).params.length = signature.params.length := by
    simp [of]
  generalize hm : of signature graph tree typing = m at h hparams
  have hsignature : m.signature = signature := by
    rw [← hm]
    rfl
  rw [← hsignature] at hinit hparams
  obtain ⟨hhead, s, hafter, hbound, hfit, hseen⟩ := m.scoped_head style hparams hinit
  rw [signs, Scopes.scoped_append, Scopes.scoped_append, hafter]
  exact ⟨⟨hhead, h.scoped_body hbound hfit hseen⟩, trivial, trivial, trivial⟩

def ofCode (s : Signature) (entry : List Register) (insns : List Insn) (tries : List TryRange) (length : Nat) :
    Except Inconsistency Lifted := do
  let g ← Graph.build insns tries length
  let (g, t) := Typing.infer ⟨[]⟩ 100 g (Chain.build g entry) (entry.map (·.type)) s.ret
  return of s g (Structured.of g) t

/-- A call whose value is zero where it throws. -/
def guardedValue : List Insn :=
  [.of (.invoke .static ⟨"Foo", "g", [], .int⟩) [] (some (.plain 1)) 0,
    .of (.goto 5) [] none 1,
    .of (.moveException (some (.object "java.lang.Exception"))) [] (some (.plain 2)) 2,
    .of (.invoke .static ⟨"Foo", "log", [.object "java.lang.Exception"], .void⟩) [.ofReg 2] none 3,
    .of .const [.lit 0 .int] (some (.plain 1)) 4,
    .of .ret [.ofReg 1] none 5]

theorem signs_scoped_guardedValue :
    ∃ m, ofCode ⟨"a.B", "m", [], .int, ⟨8⟩⟩ [] guardedValue
        [⟨0, 1, [⟨some (.object "java.lang.Exception"), 2⟩]⟩] 6 = .ok m ∧
      m.Clear ∧ spell (m.signs ⟨4, 0, false⟩) = (m.render ⟨4, 0, false⟩).1.code ∧
      m.receiverScope.Scoped (m.signs ⟨4, 0, false⟩) :=
  ⟨of _ _ _ _, rfl, by decide +kernel, signs_scoped _ _ _ _ _ nofun (by decide +kernel)⟩

def returnedException : List Insn :=
  [.of .const [.lit 0 (.narrow ⟨768⟩)] (some (.plain 1)) 0,
    .of (.invoke .static ⟨"Foo", "g", [], .void⟩) [] none 1,
    .of (.goto 4) [] none 2,
    .of (.moveException (some (.object "java.lang.Exception"))) [] (some (.plain 1)) 3,
    .of .ret [.ofReg 1] none 4]

/-- A variable that an exception is caught in is declared a second time if it occurs outside the block of the handler. -/
theorem not_scoped_returnedException :
    ∃ m, ofCode ⟨"a.B", "m", [], .object "java.lang.Object", ⟨8⟩⟩ [] returnedException
        [⟨1, 2, [⟨some (.object "java.lang.Exception"), 3⟩]⟩] 5 = .ok m ∧
      spell (m.signs ⟨4, 0, false⟩) = (m.render ⟨4, 0, false⟩).1.code ∧
      ¬ m.receiverScope.Scoped (m.signs ⟨4, 0, false⟩) :=
  ⟨of _ _ _ _, rfl, spell_signs _ _, by decide +kernel⟩

end Lifted

end JavaLift.Source
