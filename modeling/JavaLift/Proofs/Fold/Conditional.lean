import JavaLift.Proofs.Fold.Replacement
import JavaLift.Proofs.Region.Placement

namespace JavaLift

open Region Conditionals

variable {o : Outcomes} {found : Nat → Option (CmpOp × List Arg)} {targets : List Nat}

namespace Outcomes

theorem steps_append (is js : List Insn) : o.steps (is ++ js) = o.steps is >>= fun _ => o.steps js := by
  induction is with
  | nil => simp [steps]
  | cons i is ih => simp [steps, ih]

theorem step_idle {i : Insn} (h : isWork i = false) : o.step i = pure () := by
  obtain ⟨⟨op, _, _, _⟩, _⟩ := i
  cases op <;> first | rfl | cases h

/-- Only instructions that do something count. -/
theorem steps_filter (is : List Insn) : o.steps (is.filter isWork) = o.steps is := by
  induction is with
  | nil => rfl
  | cons i is ih =>
      cases h : isWork i with
      | true => simp [h, steps, ih]
      | false => simp [h, steps, ih, step_idle h]

/-- A copy has the value of its operand. -/
theorem eval_valueOf (i : Insn) : o.eval (valueOf i) = o.eval i.toArg := by
  obtain ⟨⟨op, result, offset, line⟩, args⟩ := i
  unfold valueOf
  split
  · rename_i hop hargs
    obtain rfl : op = .move := hop
    obtain rfl : args = _ := hargs
    simp [Insn.toArg, eval, evalSome]
  · rfl

theorem step_assignment {i : Insn} {r : Register} (h : isAssignment i = true) (hw : isWork i = true)
    (hr : i.result = some r) : o.step i = o.eval (valueOf i) >>= fun _ => log (.assign r.reg) := by
  rw [eval_valueOf]
  obtain ⟨⟨op, result, offset, line⟩, args⟩ := i
  obtain rfl : result = some r := hr
  cases op <;> first | rfl | simp_all [isWork, isAssignment, Op.isTerminator]

theorem evalSome_zero (args : List Arg) : o.evalSome 0 0 args = pure () := by
  cases args <;> rfl

theorem evalSome_left (args more : List Arg) : o.evalSome 0 args.length (args ++ more) = o.evalAll args := by
  induction args with
  | nil => simp [evalAll, evalSome_zero]
  | cons a args ih =>
      simp only [evalAll, List.length_cons, List.cons_append, evalSome, ih]

theorem evalSome_right (args more : List Arg) (n take : Nat) :
    o.evalSome (args.length + n) take (args ++ more) = o.evalSome n take more := by
  induction args with
  | nil => simp
  | cons a args ih =>
      rw [List.length_cons, Nat.add_right_comm, List.cons_append]
      simpa only [evalSome] using ih

/-- A conditional value decides as the comparison it is made from, and computes one of the two values. -/
theorem eval_choice (cmp : CmpOp) (negated : Bool) (comparison : Insn) (x y : Arg) (result : Option Register) :
    o.eval (choice cmp negated comparison [x, y] result).toArg =
      o.decideOn negated (some (cmp, comparison.args)) >>= fun holds => if holds then o.eval x else o.eval y := by
  have hx := evalSome_right (o := o) comparison.args [x, y] 0 1
  have hy := evalSome_right (o := o) comparison.args [x, y] 1 1
  simp only [Nat.add_zero] at hx
  simp [choice, Insn.toArg, eval, decideOn, evalSome_left, hx, hy, evalSome]

end Outcomes

namespace Graph

variable {g : Graph}

@[simp] theorem size_setInsns (g : Graph) (b : Nat) (is : List Insn) : (g.setInsns b is).size = g.size := by
  simp [setInsns, size]

theorem block_setInsns_ne (g : Graph) {b c : Nat} (h : b ≠ c) (is : List Insn) : (g.setInsns b is).block c = g.block c := by
  simp [setInsns, block, Array.getElem?_modify, h]

theorem block_setInsns_self {b : Nat} (h : b < g.size) (is : List Insn) :
    (g.setInsns b is).block b = { g.block b with insns := is } := by
  have h' : b < g.blocks.size := h
  simp [setInsns, block, h', Array.getElem_modify]

theorem blockAt?_setInsns (g : Graph) (b : Nat) (is : List Insn) (offset : Nat) :
    (g.setInsns b is).blockAt? offset = g.blockAt? offset := by
  have hstarts (g : Graph) : g.blockAt? offset = (g.blocks.map Block.start).findIdx? (· == offset) := by
    rw [blockAt?, Array.findIdx?_map]
    rfl
  rw [hstarts, hstarts]
  congr 1
  refine Array.ext_getElem? fun i => ?_
  by_cases h : b = i <;> simp [setInsns, Array.getElem?_modify, h, Function.comp_def]

theorem lt_size_of_comparison {b : Nat} {c : CmpOp × Insn × List Insn} (h : comparison? (g.block b).insns = some c) :
    b < g.size := by
  by_contra hb
  rw [block, Array.getElem?_eq_none (Nat.le_of_not_lt hb)] at h
  cases h

end Graph

theorem comparison?_eq {is insns : List Insn} {cmp : CmpOp} {comparison : Insn}
    (h : comparison? is = some (cmp, comparison, insns)) :
    is = insns ++ [comparison] ∧ o.step comparison = pure () := by
  simp only [comparison?, Option.bind_eq_bind, Option.bind_eq_some_iff] at h
  obtain ⟨last, hlast, h⟩ := h
  obtain ⟨⟨op, result, offset, line⟩, args⟩ := last
  cases op <;> cases h
  exact ⟨(List.dropLast_append_getLast? _ hlast).symm, rfl⟩

namespace Conditionals

variable {g : Graph} {header a b : Nat} {insns : List Insn} {last : Insn}

theorem closed_frame {c : Nat} (hh : header ≠ c) (ha : a ≠ c) (hb : b ≠ c) :
    (closed g header insns last a b).block c = g.block c := by
  rw [closed, Graph.block_setInsns_ne _ hb, Graph.block_setInsns_ne _ ha, Graph.block_setInsns_ne _ hh]

theorem closed_header (hlt : header < g.size) (ha : a ≠ header) (hb : b ≠ header) :
    ((closed g header insns last a b).block header).insns = insns ++ [last] := by
  rw [closed, Graph.block_setInsns_ne _ hb, Graph.block_setInsns_ne _ ha, Graph.block_setInsns_self hlt]

theorem size_closed : (closed g header insns last a b).size = g.size := by simp [closed]

theorem blockAt?_closed (offset : Nat) : (closed g header insns last a b).blockAt? offset = g.blockAt? offset := by
  rw [closed, Graph.blockAt?_setInsns, Graph.blockAt?_setInsns, Graph.blockAt?_setInsns]

/-- A comparison with both its arms is replaced by its header, if that does the same with the instruction that closes
it. -/
theorem replaces_closed {r : Region} (hlt : header < g.size) (hr : carriers r = [header, a, b])
    (hn : (carriers r).Nodup)
    (hsame : ∀ n entry, begins entry header = true →
      (o.steps insns >>= fun _ => o.step last) = (g.machine o found targets).within n entry r) :
    Replaces o found targets g r (closed g header insns last a b) (.block header) := by
  rw [hr] at hn
  have hne : a ≠ header ∧ b ≠ header := by
    simp only [List.nodup_cons, List.mem_cons, not_or] at hn
    exact ⟨Ne.symm hn.1.1, Ne.symm hn.1.2.1⟩
  refine ⟨size_closed, blockAt?_closed, fun c hc => ?_, ?_, fun n entry hentry => ?_⟩
  · rw [hr] at hc
    simp only [List.mem_cons, not_or] at hc
    exact closed_frame (Ne.symm hc.1) (Ne.symm hc.2.1) (Ne.symm hc.2.2.1)
  · rw [hr]
    exact (List.nil_sublist _).cons_cons _
  · have hbegins : begins entry header = true := by
      cases entry with
      | none => rfl
      | some t => simpa [begins, carriers] using hentry t rfl
    rw [← hsame n entry hbegins]
    simp only [Machine.within, Machine.exec, Graph.machine, closed_header hlt hne.1 hne.2, Outcomes.steps_append,
      Outcomes.steps, bind_pure_unit]

/-- Up to its arms, a comparison does what is before it in its header and decides. -/
theorem visit_test {cmp : CmpOp} {comparison : Insn} (negated : Bool)
    (h : comparison? (g.block header).insns = some (cmp, comparison, insns)) {α : Type} (f : Bool → Act Trace α) :
    ((g.machine o found targets).visit header >>= fun _ => (g.machine o found targets).test header negated >>= f) =
      o.steps insns >>= fun _ => o.decideOn negated (some (cmp, comparison.args)) >>= f := by
  obtain ⟨heq, hidle⟩ := comparison?_eq (o := o) h
  have hat : g.comparisonAt header = some (cmp, comparison.args) := by simp [Graph.comparisonAt, h]
  simp only [Graph.machine, hat, heq, Outcomes.steps_append, Outcomes.steps, hidle, bind_assoc, pure_bind]

theorem assigned?_eq {x : Insn} (h : assigned? g a header = some x) :
    ∃ r, x.result = some r ∧ o.steps (g.block a).insns = o.eval (valueOf x) >>= fun _ => Outcomes.log (.assign r.reg) := by
  unfold assigned? at h
  split at h
  · split at h
    · rename_i i hfilter
      split at h
      · cases h
        rename_i hassign
        obtain ⟨r, hr⟩ : ∃ r, x.result = some r := by
          simp only [isAssignment, Bool.and_eq_true] at hassign
          exact Option.isSome_iff_exists.mp hassign.1.1
        have hwork : isWork x = true := (List.mem_filter.mp (hfilter ▸ List.mem_singleton_self x)).2
        refine ⟨r, hr, ?_⟩
        rw [← Outcomes.steps_filter, hfilter, Outcomes.steps, Outcomes.steps, Outcomes.step_assignment hassign hwork hr]
        simp
      · cases h
    · cases h
  · cases h

theorem step_choice (cmp : CmpOp) (negated : Bool) (comparison : Insn) (x y : Arg) (r : Register) :
    o.step (choice cmp negated comparison [x, y] (some r)) =
      o.decideOn negated (some (cmp, comparison.args)) >>= fun holds =>
        (if holds then o.eval x else o.eval y) >>= fun _ => Outcomes.log (.assign r.reg) := by
  rw [← bind_assoc, ← Outcomes.eval_choice cmp negated comparison x y (some r)]
  rfl

variable (o found targets) in
/-- Two arms that assign one register. -/
theorem replaces_assignments {r : Region} {g' : Graph} (h : foldAssignments? g r = some (g', header, a, b))
    (hn : (carriers r).Nodup) :
    header < g.size ∧ Replaces o found targets g r g' (.block header) := by
  unfold foldAssignments? at h
  split at h
  · rename_i header' negated a' b'
    simp only [Option.bind_eq_bind, Option.bind_eq_some_iff] at h
    obtain ⟨x, hx, y, hy, h⟩ := h
    split at h
    · rename_i hcond
      obtain ⟨⟨cmp, comparison, insns⟩, hcmp, h⟩ := Option.bind_eq_some_iff.mp h
      cases h
      obtain ⟨rx, hrx, hstepx⟩ := assigned?_eq (o := o) hx
      obtain ⟨ry, hry, hstepy⟩ := assigned?_eq (o := o) hy
      have hreg : ry.reg = rx.reg := by simpa [hrx, hry, eq_comm] using hcond.1
      have hlt := Graph.lt_size_of_comparison hcmp
      refine ⟨hlt, replaces_closed hlt (by simp [carriers]) hn fun n entry hbegins => ?_⟩
      simp only [Machine.within, Machine.exec, hbegins, if_true]
      rw [visit_test negated hcmp, hrx, step_choice]
      refine bind_congr fun _ => bind_congr fun holds => ?_
      cases holds with
      | true => simp [Graph.machine, hstepx]
      | false => simp [Graph.machine, hstepy, hreg]
    · cases h
  · cases h

theorem returned?_eq {head : Head} {x : Arg} (h : returned? g a header = some (head, x)) :
    o.steps (g.block a).insns = o.eval x >>= fun _ => throw .left := by
  unfold returned? at h
  split at h
  · split at h
    · rename_i i hinsns
      split at h
      · rename_i value hop hargs
        cases h
        obtain ⟨⟨op, result, offset, line⟩, args⟩ := i
        obtain rfl : op = .ret := hop
        obtain rfl : args = [x] := hargs
        simp [hinsns, Outcomes.steps, Outcomes.step, Outcomes.evalAll, Outcomes.evalSome]
      · cases h
    · cases h
  · cases h

theorem step_return (cmp : CmpOp) (negated : Bool) (comparison : Insn) (x y : Arg) (offset : Nat) (line : Option Nat) :
    o.step ⟨⟨.ret, none, offset, line⟩, [(choice cmp negated comparison [x, y] none).toArg]⟩ =
      o.decideOn negated (some (cmp, comparison.args)) >>= fun holds =>
        (if holds then o.eval x else o.eval y) >>= fun _ => throw .left := by
  rw [← bind_assoc, ← Outcomes.eval_choice cmp negated comparison x y none]
  simp [Outcomes.step, Outcomes.evalAll, Outcomes.evalSome]

/-- The parts of a comparison with single blocks for arms. -/
theorem armsOf?_eq {r : Region} {next : Option Region} {negated : Bool}
    (h : armsOf? r next = some (header, negated, a, b)) :
    ∃ elsePart, r = .branch header negated (.block a) elsePart ∧ (elsePart <|> next) = some (.block b) := by
  unfold armsOf? at h
  split at h
  · split at h
    · rename_i helse
      cases h
      exact ⟨_, rfl, helse⟩
    · cases h
  · cases h

/-- The parts of a fold of returns: both arms return, and the header is closed. -/
theorem foldReturns?_eq {r : Region} {next : Option Region} {g' : Graph} (h : foldReturns? g r next = some (g', header)) :
    ∃ negated a b elsePart cmp comparison insns last, r = .branch header negated (.block a) elsePart ∧
      (elsePart <|> next) = some (.block b) ∧ comparison? (g.block header).insns = some (cmp, comparison, insns) ∧
      g' = closed g header insns last a b ∧
      (o.steps (g.block a).insns >>= fun _ => o.steps (g.block b).insns) = o.steps (g.block a).insns ∧
      (o.steps insns >>= fun _ => o.step last) = o.steps insns >>= fun _ =>
        o.decideOn negated (some (cmp, comparison.args)) >>= fun holds =>
          if holds then o.steps (g.block a).insns else o.steps (g.block b).insns := by
  simp only [foldReturns?, Option.bind_eq_bind, Option.bind_eq_some_iff] at h
  obtain ⟨⟨header', negated, a, b⟩, harms, ⟨head, x⟩, hx, ⟨_, y⟩, hy, ⟨cmp, comparison, insns⟩, hcmp, h⟩ := h
  cases h
  obtain ⟨elsePart, hr, helse⟩ := armsOf?_eq harms
  refine ⟨negated, a, b, elsePart, cmp, comparison, insns, _, hr, helse, hcmp, rfl, ?_, ?_⟩
  · rw [returned?_eq (o := o) hx, bind_assoc]
    rfl
  · refine bind_congr fun _ => ?_
    rw [step_return]
    refine bind_congr fun holds => ?_
    cases holds with
    | true => simp [returned?_eq (o := o) hx]
    | false => simp [returned?_eq (o := o) hy]

theorem hasElse_of_foldReturns? {r : Region} {p : Graph × Nat} (h : foldReturns? g r none = some p) :
    hasElse r = true := by
  simp only [foldReturns?, Option.bind_eq_bind, Option.bind_eq_some_iff] at h
  obtain ⟨arms, harms, -⟩ := h
  unfold armsOf? at harms
  split at harms
  · rename_i elsePart
    cases elsePart with
    | none => cases harms
    | some e => rfl
  · cases harms

variable (o found targets) in
/-- Two arms that return, both inside the comparison. -/
theorem replaces_returns {r : Region} {next : Option Region} {g' : Graph} (h : foldReturns? g r next = some (g', header))
    (helse : hasElse r = true) (hn : (carriers r).Nodup) :
    header < g.size ∧ Replaces o found targets g r g' (.block header) := by
  obtain ⟨negated, a, b, elsePart, cmp, comparison, insns, last, rfl, hb, hcmp, rfl, -, hsteps⟩ :=
    foldReturns?_eq (o := o) h
  have hlt := Graph.lt_size_of_comparison hcmp
  cases elsePart with
  | none => cases helse
  | some e =>
      obtain rfl : e = .block b := by simpa using hb
      refine ⟨hlt, replaces_closed hlt (by simp [carriers]) hn fun n entry hbegins => ?_⟩
      simp only [Machine.within, Machine.exec, hbegins, if_true]
      rw [visit_test negated hcmp, hsteps]
      rfl

variable (o found targets) in
/-- Two arms that return, the second one after the comparison. -/
theorem replaces_returns_next {r next : Region} {g' : Graph} (h : foldReturns? g r (some next) = some (g', header))
    (helse : hasElse r = false) (hn : (carriersOf [r, next]).Nodup) :
    header < g.size ∧ Replaces o found targets g (.seq [r, next]) g' (.block header) := by
  obtain ⟨negated, a, b, elsePart, cmp, comparison, insns, last, rfl, hb, hcmp, rfl, hleft, hsteps⟩ :=
    foldReturns?_eq (o := o) h
  have hlt := Graph.lt_size_of_comparison hcmp
  cases elsePart with
  | some e => cases helse
  | none =>
      obtain rfl : next = .block b := by simpa using hb
      refine ⟨hlt, replaces_closed hlt (by simp [carriers, carriersOf]) hn fun n entry hbegins => ?_⟩
      have hskip : skips entry (.branch header negated (.block a) none) = false := by
        cases entry with
        | none => rfl
        | some t => simp_all [begins, skips_some, carriers]
      simp only [Machine.within, Machine.exec, Machine.execAll, hskip, hbegins, if_true, Bool.false_eq_true, if_false,
        bind_assoc]
      rw [visit_test negated hcmp, hsteps]
      refine bind_congr fun _ => bind_congr fun holds => ?_
      cases holds with
      | true => simpa [Graph.machine, skips] using hleft.symm
      | false => simp [Graph.machine, skips]

variable (o found targets) in
/-- A block joins the header before it. -/
theorem replaces_absorbed (c : Conditionals) {merge : Nat} (hlt : header < c.graph.size) (hne : header ≠ merge) :
    Replaces o found targets c.graph (.seq [.block header, .block merge]) (c.absorb header merge).graph
      (.block header) := by
  have hlt' : header < (c.graph.setInsns merge []).size := by simpa using hlt
  refine ⟨by simp [absorb], fun offset => ?_, fun b hb => ?_, ?_, fun n entry hentry => ?_⟩
  · simp [absorb, Graph.blockAt?_setInsns]
  · have hb' : b ≠ header ∧ b ≠ merge := by simpa [carriers, carriersOf] using hb
    simp only [absorb]
    rw [Graph.block_setInsns_ne _ (Ne.symm hb'.1), Graph.block_setInsns_ne _ (Ne.symm hb'.2)]
  · simp only [carriers, carriersOf, List.singleton_append]
    exact (List.nil_sublist _).cons_cons _
  · have hskip : skips entry (.block header) = false := by
      cases entry with
      | none => rfl
      | some t => simpa [skips_some, carriers] using hentry t rfl
    simp only [Machine.within, Machine.exec, Machine.execAll, hskip, Graph.machine, absorb,
      Graph.block_setInsns_self hlt', Graph.block_setInsns_ne _ (Ne.symm hne), Outcomes.steps_append]
    simp [skips]

theorem replaces_nested (g : Graph) (r next : Region) (rest : List Region) :
    Replaces o found targets g (.seq (r :: next :: rest)) g (.seq (.seq [r, next] :: rest)) := by
  refine ⟨rfl, fun _ => rfl, fun _ _ => rfl, by simp [carriers, carriersOf], fun n entry hentry => ?_⟩
  simp only [Machine.within, Machine.exec, Machine.execAll]
  cases entry with
  | none => simp [skips]
  | some t =>
      by_cases hr : t ∈ carriers r
      · simp [skips, carriers, carriersOf, hr]
      · by_cases hnext : t ∈ carriers next <;> simp [skips, carriers, carriersOf, hr, hnext]

def Sane (c : Conditionals) : Prop := ∀ p ∈ c.folded, p.1 < c.graph.size

theorem Sane.note {c : Conditionals} (hc : c.Sane) {g : Graph} (hg : g.size = c.graph.size) (hlt : header < c.graph.size)
    (arms : Option (Nat × Nat)) : (c.note g header arms).Sane := by
  intro p hp
  change p.1 < g.size
  rw [hg]
  rcases List.mem_cons.mp hp with rfl | hp
  · exact hlt
  · exact hc p (List.mem_filter.mp hp).1

theorem Sane.absorb {c : Conditionals} (hc : c.Sane) (header merge : Nat) : (c.absorb header merge).Sane := by
  intro p hp
  simpa [Conditionals.absorb] using hc p hp

theorem Sane.header_lt {c : Conditionals} (hc : c.Sane) {merge : Nat} (h : c.absorbs header merge = true) :
    header < c.graph.size := by
  unfold absorbs at h
  split at h
  · cases h
  · rename_i a b harms
    have hlookup : c.folded.lookup header = some (some (a, b)) := by simpa [Option.join_eq_some_iff] using harms
    obtain ⟨before, after, hfolded, -⟩ := List.lookup_eq_some_iff.mp hlookup
    exact hc (header, some (a, b)) (by simp [hfolded])

variable (o found targets)

def FoldsTo (c : Conditionals) (r : Region) (r' : Region) (c' : Conditionals) : Prop :=
  c'.Sane ∧ Replaces o found targets c.graph r c'.graph r'

theorem foldReturns_foldsTo : (items : List Region) → ∀ c : Conditionals, c.Sane → (carriersOf items).Nodup →
    Ends (foldReturns items) c fun items' => FoldsTo o found targets c (.seq items) (.seq items')
  | [], c, hc, _ => .pure ⟨hc, .refl _ _⟩
  | [r], c, hc, hn => by
      refine .get ?_
      split
      · rename_i g header h
        have helse : hasElse r = true := hasElse_of_foldReturns? h
        have hn' : (carriers r).Nodup := by simpa [carriersOf] using hn
        obtain ⟨hlt, hr⟩ := replaces_returns o found targets h helse hn'
        exact .set (.pure ⟨hc.note hr.size hlt none, .cons hn hr (.refl _ _)⟩)
      · exact .pure ⟨hc, .refl _ _⟩
  | r :: next :: rest, c, hc, hn => by
      refine .get ?_
      have hsplit := List.nodup_append.mp hn
      split
      · rename_i g header h
        refine .set (.ite (fun helse => ?_) fun helse => ?_)
        · obtain ⟨hlt, hr⟩ := replaces_returns o found targets h helse hsplit.1
          have ih := foldReturns_foldsTo (next :: rest) _ (hc.note hr.size hlt none) hsplit.2.1
          exact .bind (ih.mono fun items' c' h' => .pure ⟨h'.1, .cons hn hr h'.2⟩)
        · have hpair : (carriersOf [r, next] ++ carriersOf rest).Nodup := by simpa [carriersOf] using hn
          have hsplit' := List.nodup_append.mp hpair
          obtain ⟨hlt, hr⟩ := replaces_returns_next o found targets h (by simpa using helse) hsplit'.1
          have ih := foldReturns_foldsTo rest _ (hc.note hr.size hlt none) hsplit'.2.1
          refine .bind (ih.mono fun items' c' h' => .pure ⟨h'.1, ?_⟩)
          exact (replaces_nested _ r next rest).trans (.cons hpair hr h'.2)
      · refine .bind ((foldReturns_foldsTo (next :: rest) c hc hsplit.2.1).mono fun items' c' h => .pure ⟨h.1, ?_⟩)
        exact .cons hn (.refl _ _) h.2

theorem absorbAll_foldsTo (r : Region) (items : List Region) (c : Conditionals) (hc : c.Sane)
    (hn : (carriersOf (r :: items)).Nodup) :
    Ends (absorbAll r items) c fun items' => FoldsTo o found targets c (.seq (r :: items)) (.seq items') := by
  induction items generalizing r c with
  | nil => exact .pure ⟨hc, .refl _ _⟩
  | cons next rest ih =>
      have hstay : Ends (do return r :: (← absorbAll next rest)) c fun items' =>
          FoldsTo o found targets c (.seq (r :: next :: rest)) (.seq items') := by
        have hrest := ih next c hc (List.nodup_append.mp hn).2.1
        exact .bind (hrest.mono fun items' c' h => .pure ⟨h.1, .cons hn (.refl _ _) h.2⟩)
      unfold absorbAll
      refine .get ?_
      split
      · rename_i header merge
        refine .ite (fun habs => .set ?_) fun _ => hstay
        have hne : header ≠ merge := by
          rintro rfl
          simp [carriersOf, carriers] at hn
        have hjoin := replaces_absorbed o found targets c (hc.header_lt habs) hne
        have hrest := ih (.block header) _ (hc.absorb header merge) (by
          simp only [carriersOf, carriers] at hn ⊢
          exact hn.sublist ((List.sublist_cons_self _ _).append_left _))
        refine hrest.mono fun items' c' h => ⟨h.1, ?_⟩
        have hcons : Replaces o found targets c.graph (.seq (.seq [.block header, .block merge] :: rest))
            (c.absorb header merge).graph (.seq (.block header :: rest)) :=
          .cons (by simpa [carriersOf, carriers] using hn) hjoin (.refl _ _)
        exact (replaces_nested _ _ _ rest).trans (hcons.trans h.2)
      · exact hstay

theorem foldSequence_foldsTo (items : List Region) (c : Conditionals) (hc : c.Sane) (hn : (carriersOf items).Nodup) :
    Ends (foldSequence items) c fun items' => FoldsTo o found targets c (.seq items) (.seq items') := by
  refine .bind ((foldReturns_foldsTo o found targets items c hc hn).mono fun items' c' h => ?_)
  cases items' with
  | nil => exact .pure h
  | cons r rest =>
      refine (absorbAll_foldsTo o found targets r rest c' h.1 (h.2.sub.nodup hn)).mono fun items'' c'' h' => ?_
      exact ⟨h'.1, h.2.trans h'.2⟩

theorem foldBranch_foldsTo (r : Region) (c : Conditionals) (hc : c.Sane) (hn : (carriers r).Nodup) :
    Ends (foldBranch r) c (FoldsTo o found targets c r) := by
  refine .get ?_
  split
  · rename_i g header a b h
    obtain ⟨hlt, hr⟩ := replaces_assignments o found targets h hn
    exact .set (.pure ⟨hc.note hr.size hlt _, hr⟩)
  · split
    · rename_i g header h
      have helse : hasElse r = true := hasElse_of_foldReturns? h
      obtain ⟨hlt, hr⟩ := replaces_returns o found targets h helse hn
      exact .set (.pure ⟨hc.note hr.size hlt none, hr⟩)
    · exact .pure ⟨hc, .refl _ _⟩

theorem foldAt_foldsTo (r : Region) (c : Conditionals) (hc : c.Sane) (hn : (carriers r).Nodup) :
    Ends (foldAt r) c (FoldsTo o found targets c r) := by
  cases r with
  | seq items => exact .bind ((foldSequence_foldsTo o found targets items c hc hn).mono fun items' c' h => .pure h)
  | branch header negated thenPart elsePart => exact foldBranch_foldsTo o found targets _ c hc hn
  | _ => exact .pure ⟨hc, .refl _ _⟩

/-- Folding at a node after what is inside it. -/
theorem FoldsTo.thenAt {c c' : Conditionals} {r r' : Region} (h : FoldsTo o found targets c r r' c')
    (hn : (carriers r).Nodup) : Ends (foldAt r') c' (FoldsTo o found targets c r) :=
  (foldAt_foldsTo o found targets r' c' h.1 (h.2.sub.nodup hn)).mono fun _ _ h' => ⟨h'.1, h.2.trans h'.2⟩

def FoldsEach {β : Type} (c : Conditionals) (cs cs' : List (β × Region)) (c' : Conditionals) : Prop :=
  c'.Sane ∧ ReplacesEach o found targets c.graph cs c'.graph cs'

mutual

theorem transform_foldsTo : (r : Region) → ∀ c : Conditionals, c.Sane → (carriers r).Nodup →
    Ends (r.transform foldAt) c (FoldsTo o found targets c r)
  | .seq items, c, hc, hn => .bind ((transformAll_foldsTo items c hc hn).mono fun items' c' h => h.thenAt _ _ _ hn)
  | .branch header negated thenPart none, c, hc, hn => by
      obtain ⟨hheader, hthen⟩ := List.nodup_cons.mp hn
      refine .bind ((transform_foldsTo thenPart c hc hthen).mono fun then' c' h => ?_)
      exact FoldsTo.thenAt _ _ _ ⟨h.1, .branch header negated hheader h.2⟩ hn
  | .branch header negated thenPart (some elsePart), c, hc, hn => by
      obtain ⟨hthen, helse, -⟩ := List.nodup_append.mp (List.nodup_cons.mp hn).2
      refine .bind ((transform_foldsTo thenPart c hc hthen).mono fun then' c' h => ?_)
      refine .bind ((transform_foldsTo elsePart c' h.1 helse).mono fun else' c'' h' => ?_)
      exact FoldsTo.thenAt _ _ _ ⟨h'.1, .branchElse header negated hn h.2 h'.2⟩ hn
  | .loop kind header cond negated body, c, hc, hn => by
      have hbody : (carriers body).Nodup := by
        cases kind with
        | whileDo => exact (List.nodup_cons.mp hn).2
        | doWhile | endless => exact hn
      refine .bind ((transform_foldsTo body c hc hbody).mono fun body' c' h => ?_)
      exact FoldsTo.thenAt _ _ _ ⟨h.1, .loop kind header cond negated hn h.2⟩ hn
  | .switch header cases, c, hc, hn => by
      refine .bind ((transformCases_foldsEach cases c hc (List.nodup_cons.mp hn).2).mono fun cases' c' h => ?_)
      exact FoldsTo.thenAt _ _ _ ⟨h.1, .switch header hn h.2⟩ hn
  | .guarded body catches, c, hc, hn => by
      obtain ⟨hbody, hcatches, -⟩ := List.nodup_append.mp hn
      refine .bind ((transform_foldsTo body c hc hbody).mono fun body' c' h => ?_)
      refine .bind ((transformCatches_foldsEach catches c' h.1 hcatches).mono fun catches' c'' h' => ?_)
      exact FoldsTo.thenAt _ _ _ ⟨h'.1, .guarded hn h.2 h'.2⟩ hn
  | .block b, c, hc, hn | .raw b, c, hc, hn => foldAt_foldsTo _ _ _ _ c hc hn
  | .brk _, c, hc, hn | .cont _, c, hc, hn | .goto _, c, hc, hn => foldAt_foldsTo _ _ _ _ c hc hn

theorem transformAll_foldsTo : (items : List Region) → ∀ c : Conditionals, c.Sane → (carriersOf items).Nodup →
    Ends (transformAll foldAt items) c fun items' => FoldsTo o found targets c (.seq items) (.seq items')
  | [], c, hc, _ => .pure ⟨hc, .refl _ _⟩
  | r :: rest, c, hc, hn => by
      obtain ⟨hr, hrest, -⟩ := List.nodup_append.mp hn
      refine .bind ((transform_foldsTo r c hc hr).mono fun r' c' h => ?_)
      refine .bind ((transformAll_foldsTo rest c' h.1 hrest).mono fun rest' c'' h' => ?_)
      exact .pure ⟨h'.1, .cons hn h.2 h'.2⟩

theorem transformCases_foldsEach : (cases : List (CaseHead × Region)) → ∀ c : Conditionals, c.Sane →
    (carriersOfCases cases).Nodup → Ends (transformCases foldAt cases) c (FoldsEach o found targets c cases)
  | [], c, hc, _ => .pure ⟨hc, .nil _⟩
  | (head, r) :: rest, c, hc, hn => by
      obtain ⟨hr, hrest, -⟩ := List.nodup_append.mp hn
      refine .bind ((transform_foldsTo r c hc hr).mono fun r' c' h => ?_)
      refine .bind ((transformCases_foldsEach rest c' h.1 hrest).mono fun rest' c'' h' => ?_)
      rw [carriersOfCases, carriersOfCases_eq] at hn
      exact .pure ⟨h'.1, .cons head hn h.2 h'.2⟩

theorem transformCatches_foldsEach : (catches : List (CatchHead × Region)) → ∀ c : Conditionals, c.Sane →
    (carriersOfCatches catches).Nodup → Ends (transformCatches foldAt catches) c (FoldsEach o found targets c catches)
  | [], c, hc, _ => .pure ⟨hc, .nil _⟩
  | (head, r) :: rest, c, hc, hn => by
      obtain ⟨hr, hrest, -⟩ := List.nodup_append.mp hn
      refine .bind ((transform_foldsTo r c hc hr).mono fun r' c' h => ?_)
      refine .bind ((transformCatches_foldsEach rest c' h.1 hrest).mono fun rest' c'' h' => ?_)
      rw [carriersOfCatches, carriersOfCatches_eq] at hn
      exact .pure ⟨h'.1, .cons head hn h.2 h'.2⟩

end

/-- With the comparisons of loops and the targets of jumps given, folding changes nothing. -/
theorem foldAll_replaces (g : Graph) (root : Region) (hn : (carriers root).Nodup) :
    Replaces o found targets g root (foldAll g root).1 (foldAll g root).2.1 :=
  (transform_foldsTo o found targets root ⟨g, []⟩ nofun hn).2

end Conditionals

end JavaLift
