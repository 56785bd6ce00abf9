import JavaLift.Proofs.Region.Machine

namespace JavaLift

open Region

variable {σ α β : Type} {P : σ → Prop}

namespace Act

/-- If the property holds after the first step, it held before it, and the second step does the same. -/
def Agrees (P : σ → Prop) (a a' : Act σ α) : Prop := ∀ s, P (a.on s).2 → P s ∧ a'.on s = a.on s

theorem Agrees.pure (x : α) : Agrees P (Pure.pure x) (Pure.pure x : Act σ α) := fun _ h => ⟨h, rfl⟩

theorem Agrees.throw (e : Exit) : Agrees P (MonadExcept.throw e) (MonadExcept.throw e : Act σ α) := fun _ h => ⟨h, rfl⟩

theorem Agrees.after {a a' : Act σ α} {b b' : Act σ β} {k k' : Except Exit α → Act σ β}
    (hb : ∀ s, b.on s = (k (a.on s).1).on (a.on s).2) (hb' : ∀ s, b'.on s = (k' (a'.on s).1).on (a'.on s).2)
    (ha : Agrees P a a') (hk : ∀ r, Agrees P (k r) (k' r)) : Agrees P b b' := by
  intro s hs
  rw [hb] at hs
  obtain ⟨ht, hsame⟩ := hk _ _ hs
  obtain ⟨hp, heq⟩ := ha s ht
  exact ⟨hp, by rw [hb, hb', heq, hsame]⟩

theorem Agrees.bind {a a' : Act σ α} {f f' : α → Act σ β} (ha : Agrees P a a') (hf : ∀ x, Agrees P (f x) (f' x)) :
    Agrees P (a >>= f) (a' >>= f') := by
  refine .after (on_bind a f) (on_bind a' f') ha fun r => ?_
  cases r with
  | ok x => exact hf x
  | error e => exact .throw e

theorem Agrees.tryCatch {a a' : Act σ α} {f f' : Exit → Act σ α} (ha : Agrees P a a')
    (hf : ∀ e, Agrees P (f e) (f' e)) : Agrees P (MonadExcept.tryCatch a f) (MonadExcept.tryCatch a' f') := by
  refine .after (on_tryCatch a f) (on_tryCatch a' f') ha fun r => ?_
  cases r with
  | ok x => exact .pure x
  | error e => exact hf e

theorem Agrees.ite {c : Bool} {a a' b b' : Act σ α} (ha : Agrees P a a') (hb : Agrees P b b') :
    Agrees P (if c then a else b) (if c then a' else b') := by
  cases c <;> assumption

theorem Agrees.turn {a a' : Act σ Unit} (header : Nat) (ha : Agrees P a a') :
    Agrees P (turn header a) (turn header a') := by
  refine .tryCatch (.bind ha fun _ => .pure _) fun e s hs => ⟨hs, rfl⟩

theorem Agrees.cases {a a' : Act σ Unit} (ha : Agrees P a a') : Agrees P (cases a) (cases a') := by
  refine .tryCatch ha fun e => ?_
  by_cases he : e = .brk none
  · simpa only [he, if_true] using Agrees.pure ()
  · simpa only [he, if_false] using Agrees.throw e

theorem Agrees.guarded {a a' b b' : Act σ Unit} (ha : Agrees P a a') (hb : Agrees P b b') :
    Agrees P (guarded a b) (guarded a' b') := by
  refine .tryCatch ha fun e => ?_
  by_cases he : e = .thrown
  · simpa only [he, if_true] using hb
  · simpa only [he, if_false] using Agrees.throw e

end Act

open Act

namespace Machine

variable {M M' : Machine σ} {bs : List Nat}

structure Agrees (P : σ → Prop) (M M' : Machine σ) (bs : List Nat) : Prop where
  visit : ∀ b ∈ bs, Act.Agrees P (M.visit b) (M'.visit b)
  test : ∀ b ∈ bs, ∀ negated, Act.Agrees P (M.test b negated) (M'.test b negated)
  round : ∀ cond negated, Act.Agrees P (M.round cond negated) (M'.round cond negated)
  select : ∀ b ∈ bs, ∀ heads, Act.Agrees P (M.select b heads) (M'.select b heads)
  handler : ∀ heads, Act.Agrees P (M.handler heads) (M'.handler heads)
  leap : ∀ b ∈ bs, Act.Agrees P (M.leap b) (M'.leap b)
  land : ∀ target, Act.Agrees P (M.land target) (M'.land target)

variable {again again' : Region → Act σ Unit}

mutual

theorem exec_agrees (hM : M.Agrees P M' bs)
    (hagain : ∀ r, carriers r ⊆ bs → Act.Agrees P (again r) (again' r)) (entry : Option Nat) :
    (r : Region) → carriers r ⊆ bs → Act.Agrees P (M.exec again entry r) (M'.exec again' entry r)
  | .seq items, hr => execAll_agrees hM hagain entry items hr
  | .block b, hr => hM.visit b (hr (by simp [carriers]))
  | .raw b, hr => .bind (hM.visit b (hr (by simp [carriers]))) fun _ => hM.leap b (hr (by simp [carriers]))
  | .branch header negated thenPart none, hr => by
      simp only [carriers, List.cons_subset] at hr
      have hthen entry := exec_agrees hM hagain entry thenPart hr.2
      simp only [exec]
      refine .ite (.bind (hM.visit header hr.1) fun _ => .bind (hM.test header hr.1 negated) fun _ => ?_) (hthen entry)
      exact .ite (hthen none) (.pure ())
  | .branch header negated thenPart (some elsePart), hr => by
      simp only [carriers, List.cons_subset, List.append_subset] at hr
      have hthen entry := exec_agrees hM hagain entry thenPart hr.2.1
      have helse entry := exec_agrees hM hagain entry elsePart hr.2.2
      simp only [exec]
      refine .ite (.bind (hM.visit header hr.1) fun _ => .bind (hM.test header hr.1 negated) fun _ => ?_)
        (.ite (helse entry) (hthen entry))
      exact .ite (hthen none) (helse none)
  | .loop .whileDo header cond negated body, hr => by
      have hloop := hagain (.loop .whileDo header cond negated body) hr
      simp only [carriers, List.cons_subset] at hr
      have hbody entry : Act.Agrees P (Act.turn header (M.exec again entry body))
        (Act.turn header (M'.exec again' entry body)) :=
        (exec_agrees hM hagain entry body hr.2).turn header
      simp only [exec]
      refine .ite (.bind (hM.visit header hr.1) fun _ => .bind (hM.round cond negated) fun _ => ?_)
        (.bind (hbody entry) fun _ => .ite hloop (.pure ()))
      exact .ite (.bind (hbody none) fun _ => .ite hloop (.pure ())) (.pure ())
  | .loop .doWhile header cond negated body, hr => by
      have hloop := hagain (.loop .doWhile header cond negated body) hr
      simp only [carriers] at hr
      simp only [exec]
      refine .bind ((exec_agrees hM hagain entry body hr).turn header) fun _ => .ite ?_ (.pure ())
      exact .bind (hM.round cond negated) fun _ => .ite hloop (.pure ())
  | .loop .endless header cond negated body, hr => by
      have hloop := hagain (.loop .endless header cond negated body) hr
      simp only [carriers] at hr
      simp only [exec]
      exact .bind ((exec_agrees hM hagain entry body hr).turn header) fun _ => .ite hloop (.pure ())
  | .switch header cases, hr => by
      simp only [carriers, List.cons_subset] at hr
      have hcases n entry := execCases_agrees hM hagain n entry cases hr.2
      simp only [exec]
      refine .ite (.bind (hM.visit header hr.1) fun _ => .bind (hM.select header hr.1 _) fun first => ?_)
        (hcases 0 entry).cases
      cases first with
      | none => exact .pure ()
      | some n => exact (hcases n none).cases
  | .guarded body catches, hr => by
      simp only [carriers, List.append_subset] at hr
      have hcatch n entry := execCatch_agrees hM hagain n entry catches hr.2
      simp only [exec]
      refine .ite (hcatch 0 entry) (.guarded (exec_agrees hM hagain entry body hr.1) ?_)
      refine .bind (hM.handler _) fun first => ?_
      cases first with
      | none => exact .throw _
      | some n => exact hcatch n none
  | .brk _, _ | .cont _, _ | .goto _, _ => .throw _

theorem execAll_agrees (hM : M.Agrees P M' bs)
    (hagain : ∀ r, carriers r ⊆ bs → Act.Agrees P (again r) (again' r)) (entry : Option Nat) :
    (items : List Region) → carriersOf items ⊆ bs →
      Act.Agrees P (M.execAll again entry items) (M'.execAll again' entry items)
  | [], _ => .pure ()
  | r :: rest, hr => by
      simp only [carriersOf, List.append_subset] at hr
      simp only [execAll]
      refine .ite (execAll_agrees hM hagain entry rest hr.2) (.bind (exec_agrees hM hagain entry r hr.1) fun _ => ?_)
      exact execAll_agrees hM hagain none rest hr.2

theorem execCases_agrees (hM : M.Agrees P M' bs)
    (hagain : ∀ r, carriers r ⊆ bs → Act.Agrees P (again r) (again' r)) (n : Nat) (entry : Option Nat) :
    (cases : List (CaseHead × Region)) → carriersOfCases cases ⊆ bs →
      Act.Agrees P (M.execCases again n entry cases) (M'.execCases again' n entry cases)
  | [], _ => .pure ()
  | (_, r) :: rest, hr => by
      simp only [carriersOfCases, List.append_subset] at hr
      cases n with
      | succ n => exact execCases_agrees hM hagain n entry rest hr.2
      | zero =>
          simp only [execCases]
          refine .ite (execCases_agrees hM hagain 0 entry rest hr.2)
            (.bind (exec_agrees hM hagain entry r hr.1) fun _ => ?_)
          exact execCases_agrees hM hagain 0 none rest hr.2

theorem execCatch_agrees (hM : M.Agrees P M' bs)
    (hagain : ∀ r, carriers r ⊆ bs → Act.Agrees P (again r) (again' r)) (n : Nat) (entry : Option Nat) :
    (catches : List (CatchHead × Region)) → carriersOfCatches catches ⊆ bs →
      Act.Agrees P (M.execCatch again n entry catches) (M'.execCatch again' n entry catches)
  | [], _ => .pure ()
  | (_, r) :: rest, hr => by
      simp only [carriersOfCatches, List.append_subset] at hr
      cases n with
      | succ n => exact execCatch_agrees hM hagain n entry rest hr.2
      | zero =>
          simp only [execCatch]
          exact .ite (execCatch_agrees hM hagain 0 entry rest hr.2) (exec_agrees hM hagain entry r hr.1)

end

theorem rounds_agrees (hM : M.Agrees P M' bs) (n : Nat) (r : Region) (hr : carriers r ⊆ bs) :
    Act.Agrees P (M.rounds n r) (M'.rounds n r) := by
  induction n generalizing r with
  | zero => exact .throw _
  | succ n ih => exact exec_agrees hM ih none r hr

theorem within_agrees (hM : M.Agrees P M' bs) (n : Nat) (entry : Option Nat) (r : Region) (hr : carriers r ⊆ bs) :
    Act.Agrees P (M.within n entry r) (M'.within n entry r) := exec_agrees hM (rounds_agrees hM n) entry r hr

theorem runFrom_agrees (hM : M.Agrees P M' bs) {root : Region} (hr : carriers root ⊆ bs) (n jumps : Nat)
    (entry : Option Nat) : Act.Agrees P (M.runFrom root n jumps entry) (M'.runFrom root n jumps entry) := by
  induction jumps generalizing entry with
  | zero => exact .throw _
  | succ jumps ih =>
      refine .tryCatch (within_agrees hM n entry root hr) fun e => ?_
      cases e with
      | jump target => exact .bind (hM.land target) fun _ => .ite (ih _) (.throw _)
      | _ => exact .throw _

end Machine

end JavaLift
