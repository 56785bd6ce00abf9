import JavaLift.Proofs.Region.Fitting

namespace JavaLift

open Region Around

namespace Graph

variable (g : Graph) (o : Decisions)

def note (m : Move) : Act (List Move) Unit := modify (m :: ·)

def runBlock (b : Nat) : Act (List Move) Unit := do
  note (.run b)
  if (g.block b).isExit then throw .left

def decideAt (b : Nat) (negated : Bool) : Act (List Move) Bool :=
  if (g.block b).endsInIf then do
    let holds := o.holds (← get)
    note (.decided b holds)
    return holds != negated
  else throw .stuck

def chooseAt (b : Nat) (heads : List CaseHead) : Act (List Move) (Option Nat) :=
  if (g.block b).endsInSwitch then do
    let n := o.entry (← get)
    note (.selected b n)
    return g.caseOf b n heads
  else throw .stuck

def mover (targets : List Nat) : Machine (List Move) where
  visit := g.runBlock
  test := g.decideAt o
  round cond negated := match cond with
    | some b => g.decideAt o b negated
    | none => throw .stuck
  select := g.chooseAt o
  handler _ := return none
  leap _ := throw .stuck
  land target := return targets.contains target

/-- Executes a region tree in at most `n` rounds of a loop and `n` jumps: how it ends, and its moves. -/
def traverse (root : Region) (n : Nat) : Except Exit Unit × List Move := ((g.mover o root.carriers).run root n).on []

end Graph

section

variable (g : Graph) (o : Decisions) (latches : List Nat)

/-- A block that decides a loop has just run. -/
def Loose (s : List Move) : Prop := ∃ b ∈ latches, g.Stands o (.deciding b) s

/-- Control is before the block, if not at such a decision. -/
def Meets (k : Option Nat) (s : List Move) : Prop := Loose g o latches s ∨ ∃ b ∈ k, g.Stands o (.entering b) s

def Arrives (c : List Around) (k : Option Nat) : Except Exit Unit → List Move → Prop
  | .ok _, s => Meets g o latches k s
  | .error (.brk label), s => ∃ b ∈ breakTo c label, Meets g o latches (some b) s
  | .error (.cont label), s => ∃ b ∈ continueTo c label, Meets g o latches (some b) s
  | .error (.jump target), s => target < g.size ∧ Meets g o latches (some target) s
  | .error .left, s => g.Stands o .ended s
  | .error .spent, s => ∃ c, g.Stands o c s
  | .error .stuck, _ | .error .thrown, _ => False

/-- What a round of a loop leads to: another round from `next`, or the block after the loop, or an exit further
out. -/
def Turned (c : List Around) (k next : Option Nat) : Except Exit Bool → List Move → Prop
  | .ok true, s => Meets g o latches next s
  | .ok false, s => Meets g o latches k s
  | .error e, s => Arrives g o latches c k (.error e) s

end

section

variable {g : Graph} {o : Decisions} {latches : List Nat}

theorem Meets.passes {m k : Option Nat} {s : List Move} (h : Meets g o latches m s) (hk : Passes m k) :
    Meets g o latches k s :=
  h.imp_right fun ⟨b, hb, hs⟩ => ⟨b, hk b hb, hs⟩

theorem Meets.stands {k : Option Nat} {s : List Move} (h : Meets g o latches k s) : ∃ c, g.Stands o c s := by
  rcases h with ⟨b, -, hs⟩ | ⟨b, -, hs⟩
  · exact ⟨_, hs⟩
  · exact ⟨_, hs⟩

theorem Settled.not_loose {b : Nat} {s : List Move} (h : Settled latches (.run b :: s)) : ¬ Loose g o latches s := by
  rintro ⟨latch, hlatch, hs⟩
  obtain ⟨s', rfl⟩ := hs.run_of_deciding
  cases h.decides hlatch

theorem Settled.deciding {b : Nat} {holds : Bool} {s : List Move} (h : Settled latches (.decided b holds :: s))
    (hs : Loose g o latches s) : g.Stands o (.deciding b) s := by
  obtain ⟨latch, hlatch, hs⟩ := hs
  obtain ⟨s', rfl⟩ := hs.run_of_deciding
  obtain rfl : b = latch := by simpa [Move.decides] using h.decides hlatch
  exact hs

open Act

theorem runBlock_leads (b : Nat) :
    Leads (Settled latches) (Meets g o latches (some b)) (g.runBlock b) fun r s => match r with
      | .ok _ => ¬ (g.block b).isExit = true ∧ g.Stands o (g.after b) s
      | .error e => e = .left ∧ g.Stands o .ended s := by
  refine .bind (R := fun r s => r = .ok () ∧ g.Stands o (g.after b) s) (.modify (fun _ h => h.tail) fun s hs h => ?_)
    (fun _ => .ite (fun hexit => .throw fun s h => ?_) fun hexit => .pure fun s h => ⟨hexit, h.2⟩) (by simp)
  · refine ⟨rfl, ?_⟩
    rcases h with hloose | ⟨b', hb, hs'⟩
    · exact absurd hloose hs.not_loose
    · obtain rfl : b = b' := Option.some.inj hb
      exact hs'.run
  · exact ⟨rfl, Graph.after_of_exit hexit ▸ h.2⟩

theorem decideAt_leads {b : Nat} (hb : (g.block b).endsInIf = true) (negated : Bool) :
    Leads (Settled latches) (fun s => Loose g o latches s ∨ g.Stands o (.deciding b) s) (g.decideAt o b negated)
      fun r s => match r with
        | .ok x => g.Stands o (.to (g.branchTo b (x != negated))) s
        | .error _ => False := by
  rw [Graph.decideAt, if_pos hb]
  refine .get fun t => .bind (R := fun r s => r = .ok () ∧ g.Stands o (.to (g.branchTo b (o.holds t))) s)
    (.modify (fun _ h => h.tail) fun s hs h => ⟨rfl, ?_⟩) (fun _ => .pure fun s h => ?_) (by simp)
  · obtain ⟨rfl, hloose | hs'⟩ := h
    · exact (hs.deciding hloose).decide hb
    · exact hs'.decide hb
  · have hholds : ((o.holds t != negated) != negated) = o.holds t := by cases o.holds t <;> cases negated <;> rfl
    simp only [hholds]
    exact h.2

theorem chooseAt_leads {b : Nat} (hb : (g.block b).endsInSwitch = true) (heads : List CaseHead) :
    Leads (Settled latches) (g.Stands o (.deciding b)) (g.chooseAt o b heads) fun r s => match r with
      | .ok i => ∃ n, i = g.caseOf b n heads ∧ g.Stands o (.to (g.selectTo b n)) s
      | .error _ => False := by
  rw [Graph.chooseAt, if_pos hb]
  refine .get fun t => .bind (R := fun r s => r = .ok () ∧ g.Stands o (.to (g.selectTo b (o.entry t))) s)
    (.modify (fun _ h => h.tail) fun s hs h => ⟨rfl, ?_⟩) (fun _ => .pure fun s h => ⟨_, rfl, h.2⟩) (by simp)
  obtain ⟨rfl, hs'⟩ := h
  exact hs'.select (Graph.endsInIf_of_switch hb)

theorem Arrives.turn {c : List Around} {k m next : Option Nat} {header : Nat} {e : Exit} {s : List Move}
    (h : Arrives g o latches (⟨some header, k, next⟩ :: c) m (.error e) s) :
    Turned g o latches c k next (e.turn header) s := by
  cases e with
  | brk label =>
      obtain ⟨b, hb, hs⟩ := h
      cases label with
      | none =>
          obtain rfl : k = some b := hb
          exact hs
      | some l =>
          by_cases hl : l = header
          · obtain rfl : k = some b := by simpa [breakTo, hl] using hb
            simp only [Exit.turn, if_pos hl]
            exact hs
          · have hb' : b ∈ breakTo c (some l) := by simpa [breakTo, Ne.symm hl] using hb
            simp only [Exit.turn, if_neg hl]
            exact ⟨b, hb', hs⟩
  | cont label =>
      obtain ⟨b, hb, hs⟩ := h
      cases label with
      | none =>
          obtain rfl : next = some b := by simpa [continueTo] using hb
          exact hs
      | some l =>
          by_cases hl : l = header
          · obtain rfl : next = some b := by simpa [continueTo, hl] using hb
            simp only [Exit.turn, if_pos hl]
            exact hs
          · have hb' : b ∈ continueTo c (some l) := by simpa [continueTo, Ne.symm hl] using hb
            simp only [Exit.turn, if_neg hl]
            exact ⟨b, hb', hs⟩
  | jump target => exact h
  | left => exact h
  | spent => exact h
  | stuck => exact h
  | thrown => exact h

end

open Act

variable {g : Graph} {o : Decisions} {latches targets : List Nat} {again : Region → Act (List Move) Unit}

theorem getD_of_begins {entry : Option Nat} {header : Nat} (h : begins entry header = true) :
    entry.getD header = header := by
  cases entry with
  | none => rfl
  | some t => simpa [begins] using h

theorem getD_of_not_begins {entry : Option Nat} {header : Nat} (h : ¬ begins entry header = true) (b b' : Nat) :
    entry.getD b = entry.getD b' := by
  cases entry with
  | none => exact absurd rfl h
  | some t => rfl

theorem getD_of_skips {entry : Option Nat} {r : Region} (h : skips entry r = true) (b b' : Nat) :
    entry.getD b = entry.getD b' := by
  cases entry with
  | none => cases h
  | some t => rfl

theorem Arrives.passes {c : List Around} {m k : Option Nat} (hk : Passes m k) (r : Except Exit Unit) (s : List Move)
    (h : Arrives g o latches c m r s) : Arrives g o latches c k r s := by
  cases r with
  | ok => exact Meets.passes h hk
  | error e => cases e <;> exact h

theorem Meets.of_stands {k : Option Nat} {b : Nat} {s : List Move} (hb : b ∈ k) (hs : g.Stands o (.to k) s) :
    Meets g o latches (some b) s := by
  obtain rfl : k = some b := hb
  exact .inr ⟨b, rfl, hs⟩

theorem arm_leads {c : List Around} {b n : Nat} {taken : Bool} {m k : Option Nat} {body : Act (List Move) Unit}
    (hn : n ∈ g.branchTo b taken) (hm : Passes m k)
    (hbody : Leads (Settled latches) (Meets g o latches (some n)) body (Arrives g o latches c m)) :
    Leads (Settled latches) (g.Stands o (.to (g.branchTo b taken))) body (Arrives g o latches c k) :=
  hbody.imp (fun _ h => .of_stands hn h) (Arrives.passes hm)

/-- The first block of a region is run, and its comparison is decided. -/
theorem test_leads {c : List Around} {b : Nat} {k : Option Nat} (hb : (g.block b).endsInIf = true) (negated : Bool)
    {f : Bool → Act (List Move) Unit}
    (hthen : Leads (Settled latches) (g.Stands o (.to (g.branchTo b (!negated)))) (f true) (Arrives g o latches c k))
    (helse : Leads (Settled latches) (g.Stands o (.to (g.branchTo b negated))) (f false) (Arrives g o latches c k)) :
    Leads (Settled latches) (Meets g o latches (some b)) (g.runBlock b >>= fun _ => g.decideAt o b negated >>= f)
      (Arrives g o latches c k) := by
  refine .bind (runBlock_leads b) (fun _ => .bind (.imp (decideAt_leads hb negated) (fun s h => .inr ?_) fun _ _ h => h)
    (fun more => ?_) fun _ _ h => h.elim) fun e s h => ?_
  · rw [Graph.after_of_if hb] at h
    exact h.2
  · cases more with
    | true => simpa using hthen
    | false => simpa using helse
  · obtain ⟨rfl, h⟩ := h
    exact h

/-- The first block of a switch is run, and its case is chosen. -/
theorem choose_leads {c : List Around} {b : Nat} {k : Option Nat} (hb : (g.block b).endsInSwitch = true)
    (heads : List CaseHead) {f : Option Nat → Act (List Move) Unit}
    (hf : ∀ i, Leads (Settled latches) (fun s =>
      ∃ n, i = g.caseOf b n heads ∧ g.Stands o (.to (g.selectTo b n)) s) (f i) (Arrives g o latches c k)) :
    Leads (Settled latches) (Meets g o latches (some b)) (g.runBlock b >>= fun _ => g.chooseAt o b heads >>= f)
      (Arrives g o latches c k) := by
  refine .bind (runBlock_leads b) (fun _ => .bind (.imp (chooseAt_leads hb heads) (fun s h => ?_) fun _ _ h => h)
    (fun i => hf i) fun _ _ h => h.elim) fun e s h => ?_
  · rw [Graph.after_of_switch hb] at h
    exact h.2
  · obtain ⟨rfl, h⟩ := h
    exact h

section

variable (hagain : ∀ c b r k, Fits g latches c b r k →
  Leads (Settled latches) (Meets g o latches (some b)) (again r) (Arrives g o latches c k))
include hagain

theorem round_leads {c : List Around} {b start : Nat} {m k : Option Nat} {r : Region} {body : Act (List Move) Unit}
    (hr : Fits g latches c b r k) (hm : Passes m (some b))
    (hbody : Leads (Settled latches) (Meets g o latches (some start)) body
      (Arrives g o latches (⟨some b, k, some b⟩ :: c) m)) :
    Leads (Settled latches) (Meets g o latches (some start))
      (Act.turn b body >>= fun more => if more then again r else pure ()) (Arrives g o latches c k) := by
  refine .bind (R := Turned g o latches c k (some b))
    (.turn hbody (fun s h => h.passes hm) fun e s h => h.turn) (fun more => ?_)
    fun e s h => h
  cases more with
  | true => exact hagain c b r k hr
  | false => exact .pure fun s h => h

theorem lastRound_leads {c : List Around} {b start latch : Nat} {k : Option Nat} {r : Region} {negated : Bool}
    {body : Act (List Move) Unit} (hr : Fits g latches c b r k) (hlatch : (g.block latch).endsInIf = true)
    (hmore : g.branchTo latch (!negated) = some b) (hout : ∃ n ∈ g.branchTo latch negated, k = some n)
    (hbody : Leads (Settled latches) (Meets g o latches (some start)) body
      (Arrives g o latches (⟨some b, k, none⟩ :: c) none)) :
    Leads (Settled latches) (Meets g o latches (some start))
      (Act.turn b body >>= fun more => if more then
        g.decideAt o latch negated >>= fun more => if more then again r else pure () else pure ())
      (Arrives g o latches c k) := by
  refine .bind (R := Turned g o latches c k none) (.turn hbody (fun s h => h) fun e s h => h.turn)
    (fun more => ?_) fun e s h => h
  cases more with
  | false => exact .pure fun s h => h
  | true =>
      refine .bind (.imp (decideAt_leads hlatch negated) (fun s h => ?_) fun _ _ h => h) (fun more => ?_)
        fun e s h => h.elim
      · rcases h with hloose | ⟨_, hnone, -⟩
        · exact .inl hloose
        · cases hnone
      · cases more with
        | true => exact (hagain c b r k hr).imp (fun s h => .of_stands hmore (by simpa using h)) fun _ _ h => h
        | false =>
            obtain ⟨n, hn, rfl⟩ := hout
            exact .pure fun s h => .of_stands hn (by simpa using h)

end

theorem caseStart_eq_some {cases : List (CaseHead × Region)} {t : Nat} (h : caseStart cases none = some t)
    (k : Option Nat) :
    caseStart cases k = some t := by
  cases cases with
  | nil => cases h
  | cons c cases => exact h

theorem Leads.afterCases {c : List Around} {k : Option Nat} {body : Act (List Move) Unit} {P : List Move → Prop}
    (h : Leads (Settled latches) P body (Arrives g o latches (⟨none, k, none⟩ :: c) k)) :
    Leads (Settled latches) P (Act.cases body) (Arrives g o latches c k) := by
  refine .cases h (fun _ h => h) (fun s hs => ?_) fun e s he h => ?_
  · obtain ⟨b, hb, hs⟩ := hs
    obtain rfl : k = some b := hb
    exact hs
  · cases e with
    | brk label =>
        cases label with
        | none => exact absurd rfl he
        | some l => exact h
    | cont label => cases label <;> exact h
    | _ => exact h

mutual

theorem exec_leads (hlatches : ∀ b ∈ latches, (g.block b).endsInIf = true)
    (hagain : ∀ c b r k, Fits g latches c b r k →
      Leads (Settled latches) (Meets g o latches (some b)) (again r) (Arrives g o latches c k)) :
    (r : Region) → ∀ (c : List Around) (b : Nat) (k entry : Option Nat), Fits g latches c b r k →
      (∀ t ∈ entry, t ∈ carriers r) →
      Leads (Settled latches) (Meets g o latches (some (entry.getD b))) ((g.mover o targets).exec again entry r)
        (Arrives g o latches c k)
  | .seq items, c, b, k, entry, hr, hentry => execAll_leads hlatches hagain items c b k entry hr hentry
  | .block x, c, b, k, entry, hr, hentry => by
      obtain ⟨rfl, hr⟩ := hr
      have hbegins : entry.getD x = x := by
        cases entry with
        | none => rfl
        | some t => simpa [carriers] using hentry t rfl
      rw [hbegins]
      refine (runBlock_leads x).imp (fun _ h => h) fun res s h => ?_
      cases res with
      | error e =>
          obtain ⟨rfl, h⟩ := h
          exact h
      | ok =>
          obtain ⟨hstays, h⟩ := h
          rcases hr with hexit | ⟨n, hafter, rfl⟩ | hlatch
          · exact absurd hexit hstays
          · exact .inr ⟨n, rfl, hafter ▸ h⟩
          · exact .inl ⟨x, hlatch, Graph.after_of_if (hlatches x hlatch) ▸ h⟩
  | .branch header negated thenPart none, c, b, k, entry, hr, hentry => by
      obtain ⟨rfl, hif, ⟨n, hn, m, hm, hthen⟩, n', hn', rfl⟩ := hr
      refine .ite (fun hbegins => ?_) fun hbegins => ?_
      · rw [getD_of_begins hbegins]
        refine test_leads hif negated ?_ (.pure fun s h => .of_stands hn' h)
        exact arm_leads hn hm (exec_leads hlatches hagain thenPart c n m none hthen nofun)
      · rw [getD_of_not_begins hbegins header n]
        exact (exec_leads hlatches hagain thenPart c n m entry hthen (mem_of_not_begins hbegins hentry)).imp
          (fun _ h => h)
          (Arrives.passes hm)
  | .branch header negated thenPart (some elsePart), c, b, k, entry, hr, hentry => by
      obtain ⟨rfl, hif, ⟨n, hn, m, hm, hthen⟩, n', hn', m', hm', helse⟩ := hr
      refine .ite (fun hbegins => ?_) fun hbegins => .ite (fun hskips => ?_) fun hskips => ?_
      · rw [getD_of_begins hbegins]
        exact test_leads hif negated
          (arm_leads hn hm (exec_leads hlatches hagain thenPart c n m none hthen nofun))
          (arm_leads hn' hm' (exec_leads hlatches hagain elsePart c n' m' none helse nofun))
      · rw [getD_of_not_begins hbegins header n']
        exact (exec_leads hlatches hagain elsePart c n' m' entry helse
          (mem_of_skips hskips (mem_of_not_begins hbegins hentry))).imp (fun _ h => h) (Arrives.passes hm')
      · rw [getD_of_not_begins hbegins header n]
        exact (exec_leads hlatches hagain thenPart c n m entry hthen (mem_of_not_skips hskips)).imp (fun _ h => h)
          (Arrives.passes hm)
  | .loop .whileDo header cond negated body, c, b, k, entry, hr, hentry => by
      have hloop := hr
      obtain ⟨rfl, rfl, hif, ⟨n, hn, m, hm, hbody⟩, n', hn', rfl⟩ := hr
      refine .ite (fun hbegins => ?_) fun hbegins => ?_
      · rw [getD_of_begins hbegins]
        have hround := round_leads hagain hloop hm (exec_leads hlatches hagain body _ n m none hbody nofun)
        refine test_leads hif negated ?_ (.pure fun s h => .of_stands hn' h)
        exact hround.imp (fun s h => .of_stands hn h) fun _ _ h => h
      · rw [getD_of_not_begins hbegins header n]
        exact round_leads hagain hloop hm
          (exec_leads hlatches hagain body _ n m entry hbody (mem_of_not_begins hbegins hentry))
  | .loop .doWhile header cond negated body, c, b, k, entry, hr, hentry => by
      have hloop := hr
      obtain ⟨rfl, ⟨latch, hlatch, rfl, hmore, hout⟩, hbody⟩ := hr
      exact lastRound_leads hagain hloop (hlatches latch hlatch) hmore hout
        (exec_leads hlatches hagain body _ header none entry hbody hentry)
  | .loop .endless header cond negated body, c, b, k, entry, hr, hentry => by
      have hloop := hr
      obtain ⟨rfl, -, m, hm, hbody⟩ := hr
      exact round_leads hagain hloop hm (exec_leads hlatches hagain body _ header m entry hbody hentry)
  | .switch header cases, c, b, k, entry, hr, hentry => by
      obtain ⟨rfl, hswitch, hselect, hcases⟩ := hr
      have hbody i entry hentry := execCases_leads hlatches hagain cases _ k entry i hcases hentry
      refine .ite (fun hbegins => ?_) fun hbegins => ?_
      · rw [getD_of_begins hbegins]
        refine choose_leads hswitch _ fun i => ?_
        cases i with
        | none =>
            refine .pure fun s h => ?_
            obtain ⟨n, hn, h⟩ := h
            obtain ⟨t, ht, hk⟩ := hselect n
            rw [← hn] at hk
            obtain rfl : k = some t := hk
            exact .of_stands ht h
        | some i =>
            refine (Leads.afterCases (hbody i none nofun)).imp (fun s h => ?_) fun _ _ h => h
            obtain ⟨n, hn, h⟩ := h
            obtain ⟨t, ht, hi⟩ := hselect n
            rw [← hn] at hi
            have hstart : caseStart (cases.drop i) k = some t := caseStart_eq_some hi k
            rw [hstart]
            exact .of_stands ht h
      · refine (Leads.afterCases (hbody 0 entry fun t ht => ⟨rfl, mem_of_not_begins hbegins hentry t ht⟩)).imp
          (fun s h => ?_)
          fun _ _ h => h
        cases entry with
        | none => exact absurd rfl hbegins
        | some t => exact h
  | .guarded body catches, c, b, k, entry, hr, hentry => hr.elim
  | .raw x, c, b, k, entry, hr, hentry => hr.elim
  | .brk label, c, b, k, entry, hr, hentry => by
      have hnone : entry = none := eq_none_of_nowhere hentry
      exact .throw fun s h => ⟨b, hr, by simpa [hnone] using h⟩
  | .cont label, c, b, k, entry, hr, hentry => by
      have hnone : entry = none := eq_none_of_nowhere hentry
      exact .throw fun s h => ⟨b, hr, by simpa [hnone] using h⟩
  | .goto target, c, b, k, entry, hr, hentry => by
      have hnone : entry = none := eq_none_of_nowhere hentry
      obtain ⟨rfl, hlt⟩ := hr
      exact .throw fun s h => ⟨hlt, by simpa [hnone] using h⟩

theorem execAll_leads (hlatches : ∀ b ∈ latches, (g.block b).endsInIf = true)
    (hagain : ∀ c b r k, Fits g latches c b r k →
      Leads (Settled latches) (Meets g o latches (some b)) (again r) (Arrives g o latches c k)) :
    (items : List Region) → ∀ (c : List Around) (b : Nat) (k entry : Option Nat), FitsAll g latches c b items k →
      (∀ t ∈ entry, t ∈ carriersOf items) →
      Leads (Settled latches) (Meets g o latches (some (entry.getD b))) ((g.mover o targets).execAll again entry items)
        (Arrives g o latches c k)
  | [], c, b, k, entry, hr, hentry => by
      have hnone : entry = none := eq_none_of_nowhere hentry
      obtain rfl : k = some b := hr
      refine .pure fun s h => ?_
      rwa [hnone] at h
  | r :: rest, c, b, k, entry, hr, hentry => by
      obtain ⟨m, hr, hrest⟩ := hr
      refine .ite (fun hskips => ?_) fun hskips => ?_
      · have hentry' := mem_of_skips hskips hentry
        rcases hrest with ⟨-, rfl⟩ | ⟨n, -, hrest⟩
        · cases entry with
          | none => cases hskips
          | some t => simpa [carriersOf] using hentry' t rfl
        · rw [getD_of_skips hskips b n]
          exact execAll_leads hlatches hagain rest c n k entry hrest hentry'
      · refine .bind (exec_leads hlatches hagain r c b m entry hr (mem_of_not_skips hskips)) (fun _ => ?_)
          fun e s h => ?_
        · rcases hrest with ⟨rfl, rfl⟩ | ⟨n, hm, hrest⟩
          · exact .pure fun s h => Meets.passes h nofun
          · exact (execAll_leads hlatches hagain rest c n k none hrest nofun).imp
              (fun s h => Meets.passes h hm) fun _ _ h => h
        · cases e <;> exact h

theorem execCases_leads (hlatches : ∀ b ∈ latches, (g.block b).endsInIf = true)
    (hagain : ∀ c b r k, Fits g latches c b r k →
      Leads (Settled latches) (Meets g o latches (some b)) (again r) (Arrives g o latches c k)) :
    (cases : List (CaseHead × Region)) → ∀ (c : List Around) (k entry : Option Nat) (i : Nat),
      FitsCases g latches c cases k → (∀ t ∈ entry, i = 0 ∧ t ∈ carriersOfCases cases) →
      Leads (Settled latches) (Meets g o latches (entry <|> caseStart (cases.drop i) k))
        ((g.mover o targets).execCases again i entry cases) (Arrives g o latches c k)
  | [], c, k, entry, i, hr, hentry => by
      have hnone : entry = none := eq_none_of_nowhere fun t ht => (hentry t ht).2
      refine .pure fun s h => ?_
      rwa [hnone, List.drop_nil] at h
  | (head, r) :: rest, c, k, entry, i, hr, hentry => by
      obtain ⟨⟨m, hm, hr⟩, hrest⟩ := hr
      cases i with
      | succ i =>
          refine execCases_leads hlatches hagain rest c k entry i hrest fun t ht => ?_
          exact absurd (hentry t ht).1 (Nat.succ_ne_zero i)
      | zero =>
          refine .ite (fun hskips => ?_) fun hskips => ?_
          · cases entry with
            | none => cases hskips
            | some t =>
                refine execCases_leads hlatches hagain rest c k (some t) 0 hrest fun t' ht' => ⟨rfl, ?_⟩
                exact mem_of_skips hskips (fun t ht => (hentry t ht).2) t' ht'
          · refine .bind ((exec_leads hlatches hagain r c head.target m entry hr (mem_of_not_skips hskips)).imp
              (fun s h => ?_)
              fun _ _ h => h) (fun _ => ?_) fun e s h => ?_
            · cases entry <;> exact h
            · exact (execCases_leads hlatches hagain rest c k none 0 hrest nofun).imp (fun s h => Meets.passes h hm)
                fun _ _ h => h
            · cases e <;> exact h

end

/-- A tree that fits the graph keeps to its walk over all rounds of its loops. -/
theorem rounds_leads (hlatches : ∀ b ∈ latches, (g.block b).endsInIf = true) (n : Nat) (c : List Around) (b : Nat)
    (r : Region)
    (k : Option Nat) (hr : Fits g latches c b r k) :
    Leads (Settled latches) (Meets g o latches (some b)) ((g.mover o targets).rounds n r)
      (Arrives g o latches c k) := by
  -- The induction over the tree is within a round. What a loop does again has one round less.
  induction n generalizing c b r k with
  | zero => exact .throw fun s h => h.stands
  | succ n ih => exact exec_leads hlatches ih r c b k none hr nofun

/-- How an execution of a whole tree ends: at the end of the walk, or at a decision that does not come, or on the way. -/
def Finishes (g : Graph) (o : Decisions) (latches : List Nat) : Except Exit Unit → List Move → Prop
  | .ok _, s => Loose g o latches s
  | .error e, s => e = .left ∧ g.Stands o .ended s ∨ e = .spent ∧ ∃ c, g.Stands o c s

theorem runFrom_leads (hlatches : ∀ b ∈ latches, (g.block b).endsInIf = true) {root : Region} {b : Nat}
    (hroot : Fits g latches [] b root none) (hall : ∀ t < g.size, t ∈ root.carriers) (n jumps : Nat)
    (entry : Option Nat)
    (hentry : ∀ t ∈ entry, t ∈ root.carriers) :
    Leads (Settled latches) (Meets g o latches (some (entry.getD b)))
      ((g.mover o root.carriers).runFrom root n jumps entry) (Finishes g o latches) := by
  induction jumps generalizing entry with
  | zero => exact .throw fun s h => .inr ⟨rfl, h.stands⟩
  | succ jumps ih =>
      refine .tryCatch (exec_leads hlatches (rounds_leads hlatches n) root [] b none entry hroot hentry)
        (fun _ s h => ?_)
        fun e => ?_
      · exact h.resolve_right (by simp)
      · cases e with
        | jump target =>
            -- The tree carries every block, so a jump goes on at one of them.
            by_cases ht : target ∈ root.carriers
            · have hland : root.carriers.contains target = true := by simpa using ht
              simp only [Graph.mover, pure_bind, hland, if_true]
              exact (ih (some target) fun t h => by cases h; exact ht).imp (fun s h => h.2) fun _ _ h => h
            · have hland : root.carriers.contains target = false := by simpa using ht
              simp only [Graph.mover, pure_bind, hland, Bool.false_eq_true, if_false]
              exact .throw fun s h => absurd (hall target h.1) ht
        | left => exact .throw fun s h => .inl ⟨rfl, h⟩
        | spent => exact .throw fun s h => .inr ⟨rfl, h⟩
        | brk label => exact .throw fun s h => by cases label <;> simp [Arrives, breakTo] at h
        | cont label => exact .throw fun s h => by cases label <;> simp [Arrives, continueTo] at h
        | stuck | thrown => exact .throw fun s h => h.elim

end JavaLift
