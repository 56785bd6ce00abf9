import JavaLift.Proofs.Region.Traversal
import JavaLift.Proofs.Region.Loops

namespace JavaLift

open Region

variable {α β : Type} {g : Graph} {o : Decisions} {latches targets : List Nat}

theorem Exit.eq_spent_of_turn {header : Nat} {e : Exit} (h : e.turn header = .error .spent) : e = .spent := by
  cases e with
  | brk label =>
      cases label with
      | none => cases h
      | some l =>
          simp only [turn] at h
          split at h <;> cases h
  | cont label =>
      cases label with
      | none => cases h
      | some l =>
          simp only [turn] at h
          split at h <;> cases h
  | _ => cases h <;> rfl

namespace Act

/-- The action makes at least `d` moves, and at least `z` where it runs out of rounds or jumps. -/
def Grows (d z : Nat) (a : Act (List Move) α) : Prop :=
  ∀ s, s.length + d ≤ (a.on s).2.length ∧ ((a.on s).1 = .error .spent → s.length + z ≤ (a.on s).2.length)

namespace Grows

variable {d d' z y : Nat} {a : Act (List Move) α}

theorem pure (x : α) : Grows 0 z (Pure.pure x) := fun _ => ⟨Nat.le_refl _, nofun⟩

theorem throw {e : Exit} (he : e ≠ .spent) : Grows 0 z (MonadExcept.throw e : Act (List Move) α) :=
  fun _ => ⟨Nat.le_refl _, fun h => absurd (Except.error.inj h) he⟩

theorem mono (h : Grows d z a) (hd : d' ≤ d) (hz : y ≤ z) : Grows d' y a := by
  refine fun s => ⟨?_, fun hs => ?_⟩
  · have := (h s).1
    omega
  · have := (h s).2 hs
    omega

/-- One action after the other. The first one has moved far enough by itself where it runs out of rounds or jumps. -/
theorem after {b : Act (List Move) β} {k : Except Exit α → Act (List Move) β}
    (hb : ∀ s, b.on s = (k (a.on s).1).on (a.on s).2) (ha : Grows d z a) (hspent : Grows 0 0 (k (.error .spent)))
    (hk : ∀ r, r ≠ .error .spent → Grows 0 y (k r)) (hz : z ≤ d + y) : Grows d z b := by
  intro s
  rw [hb]
  have ha := ha s
  by_cases hr : (a.on s).1 = .error .spent
  · have hlength := (hspent (a.on s).2).1
    have hmoved := ha.2 hr
    rw [hr]
    omega
  · have hrest := hk _ hr (a.on s).2
    refine ⟨by omega, fun hs => ?_⟩
    have hmoved := hrest.2 hs
    omega

theorem bind {f : α → Act (List Move) β} (ha : Grows d z a) (hf : ∀ x, Grows 0 y (f x)) (hz : z ≤ d + y) :
    Grows d z (a >>= f) := by
  refine .after (on_bind a f) ha (fun _ => ⟨Nat.le_refl _, fun _ => Nat.le_refl _⟩) (fun r hr => ?_) hz
  cases r with
  | ok x => exact hf x
  | error e => exact .throw fun he => hr (congrArg _ he)

theorem tryCatch {f : Exit → Act (List Move) α} (ha : Grows d z a) (hspent : Grows 0 0 (f .spent))
    (hf : ∀ e, e ≠ .spent → Grows 0 y (f e)) (hz : z ≤ d + y) : Grows d z (MonadExcept.tryCatch a f) := by
  refine .after (on_tryCatch a f) ha hspent (fun r hr => ?_) hz
  cases r with
  | ok x => exact .pure x
  | error e => exact hf e fun he => hr (congrArg _ he)

theorem ite {c : Prop} [Decidable c] {a' : Act (List Move) α} (h : c → Grows d z a) (h' : ¬ c → Grows d z a') :
    Grows d z (if c then a else a') := by
  split
  · exact h ‹_›
  · exact h' ‹_›

theorem get {f : List Move → Act (List Move) α} (h : ∀ t, Grows d z (f t)) : Grows d z (MonadState.get >>= f) :=
  fun s => h s s

theorem note (e : Move) : Grows 1 z (Graph.note e) := fun s => ⟨Nat.le_refl (s.length + 1), nofun⟩

theorem turn {header : Nat} {body : Act (List Move) Unit} (h : Grows d z body) :
    Grows d z (Act.turn header body) := by
  refine .tryCatch (.bind h (fun _ => .pure true) (Nat.le_add_left _ _)) (fun _ => ⟨Nat.le_refl _, fun _ => Nat.le_refl _⟩)
    (fun e he s => ⟨Nat.le_refl _, fun hs => absurd (Exit.eq_spent_of_turn hs) he⟩) (Nat.le_add_left _ _)

theorem cases {body : Act (List Move) Unit} (h : Grows d z body) : Grows d z (Act.cases body) := by
  refine .tryCatch h ?_ (fun e he => .ite (fun _ => .pure ()) fun _ => .throw he) (Nat.le_add_left _ _)
  exact fun s => ⟨Nat.le_refl _, fun _ => Nat.le_refl _⟩

end Grows

end Act

open Act

theorem runBlock_grows (b z : Nat) : Grows 1 z (g.runBlock b) :=
  .bind (.note _) (fun _ => .ite (fun _ => .throw nofun) fun _ => .pure ()) (Nat.le_add_left _ _)

theorem decideAt_grows (b : Nat) (negated : Bool) {f : Bool → Act (List Move) α} {z : Nat} (hf : ∀ x, Grows 0 z (f x)) :
    Grows 0 (z + 1) (g.decideAt o b negated >>= f) := by
  unfold Graph.decideAt
  by_cases hb : (g.block b).endsInIf = true
  · simp only [hb, if_true]
    refine Grows.mono (d := 1) (.bind (.get fun t => .bind (.note _) (fun _ => .pure _) (Nat.le_add_left _ _)) hf ?_)
      (Nat.zero_le _) (Nat.le_refl _)
    omega
  · simp only [hb]
    exact .throw nofun

theorem chooseAt_grows (b : Nat) (heads : List CaseHead) (z : Nat) : Grows 0 z (g.chooseAt o b heads) :=
  .ite (fun _ => .get fun _ => (Grows.bind (.note _) (fun _ => .pure _) (Nat.le_add_left _ _)).mono (Nat.zero_le _)
    (Nat.le_refl _)) fun _ => .throw nofun

theorem opens_head {r : Region} {rest : List Region} (h : (Region.seq (r :: rest)).opens = true) : r.opens = true := by
  cases r <;> first | rfl | cases h

theorem ne_none_of_not_begins {entry : Option Nat} {header : Nat} (h : ¬ begins entry header = true) :
    entry ≠ none := by
  rintro rfl
  exact h rfl

theorem opening_grows (b : Nat) (negated : Bool) {n : Nat} {f : Bool → Act (List Move) Unit}
    (hf : ∀ x, Grows 0 n (f x)) :
    Grows 1 (n + 1) (g.runBlock b >>= fun _ => g.decideAt o b negated >>= f) :=
  .bind (runBlock_grows b _) (fun _ => (decideAt_grows b negated hf).mono (Nat.le_refl _) (Nat.le_succ n)) (by omega)

theorem more_grows {d n z header : Nat} {body rest : Act (List Move) Unit} (hbody : Grows d z body)
    (hrest : Grows 0 n rest) (hz : z ≤ d + n) :
    Grows d z (Act.turn header body >>= fun more => if more then rest else pure ()) :=
  .bind (.turn hbody) (fun _ => .ite (fun _ => hrest) fun _ => .pure ()) hz

mutual

/-- A region that begins with a block makes a move, and so does one that is entered at a block it carries. -/
theorem exec_grows {n : Nat} {again : Region → Act (List Move) Unit}
    (hagain : ∀ c b r k, Fits g latches c b r k → Grows 0 n (again r)) :
    (r : Region) → ∀ (c : List Around) (b d : Nat) (k entry : Option Nat), Fits g latches c b r k →
      (∀ t ∈ entry, t ∈ carriers r) → (d = 0 ∨ d = 1 ∧ (entry ≠ none ∨ r.opens = true)) →
      Grows d (n + 1) ((g.mover o targets).exec again entry r)
  | .seq items, c, b, d, k, entry, hr, hentry, hd => execAll_grows hagain items c b d k entry hr hentry hd
  | .block x, c, b, d, k, entry, hr, hentry, hd => (runBlock_grows x _).mono (by omega) (Nat.le_refl _)
  | .branch header negated thenPart none, c, b, d, k, entry, hr, hentry, hd => by
      obtain ⟨rfl, hif, ⟨n', hn, m, hm, hthen⟩, -⟩ := hr
      refine .ite (fun hbegins => ?_) fun hbegins => ?_
      · refine (opening_grows header negated fun x => ?_).mono (by omega) (Nat.le_refl _)
        cases x with
        | true =>
            exact (exec_grows hagain thenPart c n' 0 m none hthen nofun (.inl rfl)).mono (Nat.le_refl _) (by omega)
        | false => exact .pure ()
      · exact exec_grows hagain thenPart c n' d m entry hthen (mem_of_not_begins hbegins hentry)
          (hd.imp_right fun hd => ⟨hd.1, .inl (ne_none_of_not_begins hbegins)⟩)
  | .branch header negated thenPart (some elsePart), c, b, d, k, entry, hr, hentry, hd => by
      obtain ⟨rfl, hif, ⟨n', hn, m, hm, hthen⟩, e, he, m', hm', helse⟩ := hr
      refine .ite (fun hbegins => ?_) fun hbegins => .ite (fun hskips => ?_) fun hskips => ?_
      · refine (opening_grows header negated fun x => ?_).mono (by omega) (Nat.le_refl _)
        cases x with
        | true =>
            exact (exec_grows hagain thenPart c n' 0 m none hthen nofun (.inl rfl)).mono (Nat.le_refl _) (by omega)
        | false =>
            exact (exec_grows hagain elsePart c e 0 m' none helse nofun (.inl rfl)).mono (Nat.le_refl _) (by omega)
      · exact exec_grows hagain elsePart c e d m' entry helse (mem_of_skips hskips (mem_of_not_begins hbegins hentry))
          (hd.imp_right fun hd => ⟨hd.1, .inl (ne_none_of_not_begins hbegins)⟩)
      · exact exec_grows hagain thenPart c n' d m entry hthen (mem_of_not_skips hskips)
          (hd.imp_right fun hd => ⟨hd.1, .inl (ne_none_of_not_begins hbegins)⟩)
  | .loop .whileDo header cond negated body, c, b, d, k, entry, hr, hentry, hd => by
      have hrest := hagain c b _ k hr
      obtain ⟨rfl, rfl, hif, ⟨n', hn, m, hm, hbody⟩, -⟩ := hr
      refine .ite (fun hbegins => ?_) fun hbegins => ?_
      · refine (opening_grows header negated fun x => ?_).mono (by omega) (Nat.le_refl _)
        cases x with
        | true =>
            have hbody := exec_grows hagain body _ n' 0 m none hbody nofun (.inl rfl)
            exact more_grows (hbody.mono (Nat.le_refl _) (Nat.le_succ n)) hrest (Nat.le_add_left _ _)
        | false => exact .pure ()
      · have hbody := exec_grows hagain body _ n' 1 m entry hbody (mem_of_not_begins hbegins hentry)
          (.inr ⟨rfl, .inl (ne_none_of_not_begins hbegins)⟩)
        exact (more_grows hbody hrest (by omega)).mono (by omega) (Nat.le_refl _)
  | .loop .doWhile header cond negated body, c, b, d, k, entry, hr, hentry, hd => by
      have hrest := hagain c b _ k hr
      obtain ⟨rfl, ⟨latch, -, rfl, -⟩, hbody⟩ := hr
      have hbody := exec_grows hagain body _ header d none entry hbody hentry
        (hd.imp_right fun hd => ⟨hd.1, .inl (hd.2.resolve_right nofun)⟩)
      have hdecided := decideAt_grows (g := g) (o := o) latch negated
        (f := fun more => if more then again _ else pure ()) fun _ => .ite (fun _ => hrest) fun _ => .pure ()
      exact more_grows hbody hdecided (by omega)
  | .loop .endless header cond negated body, c, b, d, k, entry, hr, hentry, hd => by
      have hrest := hagain c b _ k hr
      obtain ⟨rfl, hopens, m, hm, hbody⟩ := hr
      have hbody := exec_grows hagain body _ header 1 m entry hbody hentry (.inr ⟨rfl, .inr hopens⟩)
      exact (more_grows hbody hrest (by omega)).mono (by omega) (Nat.le_refl _)
  | .switch header cases, c, b, d, k, entry, hr, hentry, hd => by
      obtain ⟨rfl, hswitch, -, hcases⟩ := hr
      refine .ite (fun hbegins => ?_) fun hbegins => ?_
      · refine (Grows.bind (z := n + 1) (y := n + 1) (runBlock_grows header _)
          (fun _ => .bind (chooseAt_grows _ _ (n + 1)) (fun i => ?_) (Nat.le_add_left _ _)) (by omega)).mono (by omega)
            (Nat.le_refl _)
        cases i with
        | none => exact .pure ()
        | some i => exact (execCases_grows hagain cases _ 0 k none i hcases nofun (.inl rfl)).cases
      · exact (execCases_grows hagain cases _ d k entry 0 hcases
          (fun t ht => ⟨rfl, mem_of_not_begins hbegins hentry t ht⟩)
          (hd.imp_right fun hd => ⟨hd.1, ne_none_of_not_begins hbegins⟩)).cases
  | .guarded body catches, c, b, d, k, entry, hr, hentry, hd => hr.elim
  | .raw x, c, b, d, k, entry, hr, hentry, hd => hr.elim
  | .brk label, c, b, d, k, entry, hr, hentry, hd => by
      have hnone : entry = none := eq_none_of_nowhere hentry
      obtain rfl : d = 0 := hd.resolve_right fun hd => hd.2.elim (· hnone) nofun
      exact .throw nofun
  | .cont label, c, b, d, k, entry, hr, hentry, hd => by
      have hnone : entry = none := eq_none_of_nowhere hentry
      obtain rfl : d = 0 := hd.resolve_right fun hd => hd.2.elim (· hnone) nofun
      exact .throw nofun
  | .goto target, c, b, d, k, entry, hr, hentry, hd => by
      have hnone : entry = none := eq_none_of_nowhere hentry
      obtain rfl : d = 0 := hd.resolve_right fun hd => hd.2.elim (· hnone) nofun
      exact .throw nofun

theorem execAll_grows {n : Nat} {again : Region → Act (List Move) Unit}
    (hagain : ∀ c b r k, Fits g latches c b r k → Grows 0 n (again r)) :
    (items : List Region) → ∀ (c : List Around) (b d : Nat) (k entry : Option Nat), FitsAll g latches c b items k →
      (∀ t ∈ entry, t ∈ carriersOf items) → (d = 0 ∨ d = 1 ∧ (entry ≠ none ∨ (Region.seq items).opens = true)) →
      Grows d (n + 1) ((g.mover o targets).execAll again entry items)
  | [], c, b, d, k, entry, hr, hentry, hd => by
      have hnone : entry = none := eq_none_of_nowhere hentry
      obtain rfl : d = 0 := hd.resolve_right fun hd => hd.2.elim (· hnone) nofun
      exact .pure ()
  | r :: rest, c, b, d, k, entry, hr, hentry, hd => by
      obtain ⟨m, hr, hrest⟩ := hr
      refine .ite (fun hskips => ?_) fun hskips => ?_
      · have hentry' := mem_of_skips hskips hentry
        have hne : entry ≠ none := by
          rintro rfl
          cases hskips
        rcases hrest with ⟨-, rfl⟩ | ⟨n', -, hrest⟩
        · exact absurd (eq_none_of_nowhere hentry') hne
        · exact execAll_grows hagain rest c n' d k entry hrest hentry' (hd.imp_right fun hd => ⟨hd.1, .inl hne⟩)
      · refine .bind (exec_grows hagain r c b d m entry hr (mem_of_not_skips hskips)
          (hd.imp_right fun hd => ⟨hd.1, hd.2.imp_right opens_head⟩)) (fun _ => ?_) (Nat.le_add_left _ _)
        rcases hrest with ⟨rfl, rfl⟩ | ⟨n', -, hrest⟩
        · exact .pure ()
        · exact execAll_grows hagain rest c n' 0 k none hrest nofun (.inl rfl)

theorem execCases_grows {n : Nat} {again : Region → Act (List Move) Unit}
    (hagain : ∀ c b r k, Fits g latches c b r k → Grows 0 n (again r)) :
    (cases : List (CaseHead × Region)) → ∀ (c : List Around) (d : Nat) (k entry : Option Nat) (i : Nat),
      FitsCases g latches c cases k → (∀ t ∈ entry, i = 0 ∧ t ∈ carriersOfCases cases) →
        (d = 0 ∨ d = 1 ∧ entry ≠ none) →
      Grows d (n + 1) ((g.mover o targets).execCases again i entry cases)
  | [], c, d, k, entry, i, hr, hentry, hd => by
      have hnone : entry = none := eq_none_of_nowhere fun t ht => (hentry t ht).2
      obtain rfl : d = 0 := hd.resolve_right fun hd => hd.2 hnone
      exact .pure ()
  | (head, r) :: rest, c, d, k, entry, i, hr, hentry, hd => by
      obtain ⟨⟨m, hm, hr⟩, hrest⟩ := hr
      cases i with
      | succ i =>
          refine execCases_grows hagain rest c d k entry i hrest (fun t ht => ?_) hd
          exact absurd (hentry t ht).1 (Nat.succ_ne_zero i)
      | zero =>
          have hentry' t ht := (hentry t ht).2
          refine .ite (fun hskips => ?_) fun hskips => ?_
          · exact execCases_grows hagain rest c d k entry 0 hrest
              (fun t ht => ⟨rfl, mem_of_skips hskips hentry' t ht⟩) hd
          · refine .bind (exec_grows hagain r c head.target d m entry hr (mem_of_not_skips hskips)
              (hd.imp_right fun hd => ⟨hd.1, .inl hd.2⟩)) (fun _ => ?_) (Nat.le_add_left _ _)
            exact execCases_grows hagain rest c 0 k none 0 hrest nofun (.inl rfl)

end

theorem rounds_grows (n : Nat) (c : List Around) (b : Nat) (r : Region) (k : Option Nat) (hr : Fits g latches c b r k) :
    Grows 0 n ((g.mover o targets).rounds n r) := by
  induction n generalizing c b r k with
  | zero => exact fun s => ⟨Nat.le_refl _, fun _ => Nat.le_refl _⟩
  | succ n ih => exact exec_grows ih r c b 0 k none hr nofun (.inl rfl)

theorem afterExit_grows {root : Region} {z : Nat} {next : Nat → Act (List Move) Unit}
    (hnext : ∀ t ∈ root.carriers, Grows 0 z (next t))
    (e : Exit) (he : e ≠ .spent) :
    Grows 0 z (match (motive := Exit → Act (List Move) Unit) e with
      | .jump target =>
          (g.mover o root.carriers).land target >>= fun found => if found then next target else throw .stuck
      | e => throw e) := by
  cases e with
  | jump target =>
      by_cases ht : target ∈ root.carriers
      · have hland : root.carriers.contains target = true := by simpa using ht
        simp only [Graph.mover, pure_bind, hland, if_true]
        exact hnext target ht
      · have hland : root.carriers.contains target = false := by simpa using ht
        simp only [Graph.mover, pure_bind, hland, Bool.false_eq_true, if_false]
        exact .throw nofun
  | _ => exact .throw he

section

variable {root : Region} {b : Nat} (hroot : Fits g latches [] b root none) {n : Nat}
include hroot

theorem within_grows (targets : List Nat) (n : Nat) {d : Nat} (entry : Option Nat)
    (hentry : ∀ t ∈ entry, t ∈ root.carriers)
    (hd : d = 0 ∨ d = 1 ∧ entry ≠ none) : Grows d (n + 1) ((g.mover o targets).within n entry root) :=
  exec_grows (fun c b r k => rounds_grows n c b r k) root [] b d none entry hroot hentry
    (hd.imp_right fun hd => ⟨hd.1, .inl hd.2⟩)

theorem runFrom_grows (n jumps t : Nat) (ht : t ∈ root.carriers) :
    Grows 0 (min (n + 1) jumps) ((g.mover o root.carriers).runFrom root n jumps (some t)) := by
  -- A jump goes on at a block, which is run. So one move at least comes before the next jump.
  induction jumps generalizing t with
  | zero => exact fun s => ⟨Nat.le_refl _, fun _ => by simp [Machine.runFrom]; exact Nat.le_refl _⟩
  | succ jumps ih =>
      have hwithin := within_grows (o := o) hroot root.carriers n (d := 1) (some t)
        (fun t' h => by cases h; exact ht) (.inr ⟨rfl, nofun⟩)
      refine Grows.mono (d := 1) (.tryCatch (hwithin.mono (Nat.le_refl _) (Nat.min_le_left _ _)) ?_
        (afterExit_grows ih) (by omega)) (Nat.zero_le _) (Nat.le_refl _)
      exact fun s => ⟨Nat.le_refl _, fun _ => Nat.le_refl _⟩

theorem traverse_grows (n : Nat) (h : (g.traverse o root n).1 = .error .spent) :
    n ≤ (g.traverse o root n).2.length + 1 := by
  cases n with
  | zero => exact Nat.zero_le _
  | succ n =>
      have hwithin := within_grows (o := o) hroot root.carriers (n + 1) (d := 0) none nofun (.inl rfl)
      have hrun : Grows 0 n ((g.mover o root.carriers).runFrom root (n + 1) (n + 1) none) := by
        refine .tryCatch (hwithin.mono (Nat.le_refl _) (by omega)) (fun s => ⟨Nat.le_refl _, fun _ => Nat.le_refl _⟩)
          (y := n) (afterExit_grows fun t ht =>
            (runFrom_grows hroot (n + 1) n t ht).mono (Nat.le_refl _) (by omega)) (by omega)
      have := (hrun []).2 h
      simpa [Graph.traverse, Machine.run] using this

end

end JavaLift
