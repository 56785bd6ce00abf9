import JavaLift.Proofs.NatSet
import JavaLift.Proofs.Region.Machine
import JavaLift.Proofs.Region.Shapes
import JavaLift.Proofs.State

namespace JavaLift

namespace Region

theorem carriersOf_append (xs ys : List Region) : carriersOf (xs ++ ys) = carriersOf xs ++ carriersOf ys := by
  induction xs with
  | nil => rfl
  | cons x xs ih => simp [carriersOf, ih]

@[simp] theorem carriers_ofList (items : List Region) : carriers (ofList items) = carriersOf items := by
  unfold ofList
  split <;> simp [carriers, carriersOf]

@[simp] theorem carriersOf_withoutLastContinue (items : List Region) :
    carriersOf (withoutLastContinue items) = carriersOf items := by
  unfold withoutLastContinue
  split
  · rename_i h
    have hsplit := List.dropLast_append_getLast? _ h
    conv_rhs => rw [← hsplit]
    simp [carriersOf_append, carriersOf, carriers]
  · rfl

end Region

@[simp] theorem Progress.labelLoop_placed (p : Progress) (r : Region) : (p.labelLoop r).placed = p.placed := by
  unfold Progress.labelLoop
  split <;> rfl

@[simp] theorem Progress.labelLoop_guarded (p : Progress) (r : Region) : (p.labelLoop r).guarded = p.guarded := by
  unfold Progress.labelLoop
  split <;> rfl

@[simp] theorem Progress.labelLoop_diagnostics (p : Progress) (r : Region) :
    (p.labelLoop r).diagnostics = p.diagnostics := by
  unfold Progress.labelLoop
  split <;> rfl

theorem Progress.mem_place {p : Progress} {b c : Nat} : c ∈ (p.place b).placed ↔ c ∈ p.placed ∨ b = c := by
  change (p.placed.insert b).contains c = true ↔ p.placed.contains c = true ∨ b = c
  simp [NatSet.contains_insert]

/-- The blocks are placed between two states: each one once, none before, and no other one. -/
structure Placed (p q : Progress) (bs : List Nat) : Prop where
  nodup : bs.Nodup
  fresh : ∀ b ∈ bs, b ∉ p.placed
  placed : ∀ b ∈ bs, b ∈ q.placed
  mono : ∀ b, b ∈ p.placed → b ∈ q.placed
  only : ∀ b, b ∈ q.placed → b ∈ p.placed ∨ b ∈ bs

namespace Placed

variable {p q r : Progress} {bs cs : List Nat}

theorem same (h : q.placed = p.placed) : Placed p q [] :=
  ⟨.nil, by simp, by simp, fun _ hb => h ▸ hb, fun _ hb => .inl (h ▸ hb)⟩

theorem trans (h : Placed p q bs) (h' : Placed q r cs) : Placed p r (bs ++ cs) := by
  refine ⟨List.nodup_append.mpr ⟨h.nodup, h'.nodup, ?_⟩, ?_, ?_, fun b hb => h'.mono b (h.mono b hb), ?_⟩
  · rintro b hb _ hc rfl
    exact h'.fresh b hc (h.placed b hb)
  · intro b hb
    rcases List.mem_append.mp hb with hb | hb
    · exact h.fresh b hb
    · exact fun hp => h'.fresh b hb (h.mono b hp)
  · intro b hb
    rcases List.mem_append.mp hb with hb | hb
    · exact h'.mono b (h.placed b hb)
    · exact h'.placed b hb
  · intro b hb
    rw [List.mem_append]
    rcases h'.only b hb with hb | hb
    · exact (h.only b hb).imp_right .inl
    · exact .inr (.inr hb)

theorem place {b : Nat} (h : b ∉ p.placed) : Placed p (p.place b) [b] := by
  refine ⟨by simp, by simpa using h, by simp [Progress.mem_place], fun c hc => Progress.mem_place.mpr (.inl hc),
    fun c hc => ?_⟩
  simpa [eq_comm] using Progress.mem_place.mp hc

end Placed

namespace Region

variable {g : Graph} {d : Dominance} {walk : Walk}

/-- What a walk returns carries the blocks that it places. A body has not been placed when it begins. -/
def Places (walk : Walk) : Prop :=
  ∀ s asBody b p, (asBody = true → b ∉ p.placed) →
    Ends (walk s asBody b) p fun items q => Placed p q (carriersOf items)

theorem jumpTo_places (g : Graph) (target : Nat) (reason : String) (p : Progress) :
    Ends (jumpTo g target reason) p fun r q => Placed p q (carriers r) := .same rfl

theorem leave_places (hw : Places walk) (fromTry : Bool) (b : Nat) (p : Progress) :
    Ends (leave g d walk fromTry b) p fun items q => Placed p q (carriersOf items) :=
  .get (.ite (fun _ => hw _ _ _ _ (by simp)) fun _ => .same rfl)

theorem arms_places (hw : Places walk) (s : Scope) (b fall target : Nat) (merge : Option Nat) (p : Progress) :
    Ends (arms walk s b fall target merge) p fun r q => ∃ cs, carriers r = b :: cs ∧ Placed p q cs := by
  refine .ite (fun _ => ?_) fun _ => .ite (fun _ => ?_) fun _ => ?_
  · exact .bind ((hw _ false fall p (by simp)).mono fun items q h => .pure ⟨_, by simp [carriers], h⟩)
  · exact .bind ((hw _ false target p (by simp)).mono fun items q h => .pure ⟨_, by simp [carriers], h⟩)
  · refine .bind ((hw _ false fall p (by simp)).mono fun items q h => ?_)
    refine .bind ((hw _ false target q (by simp)).mono fun items' q' h' => ?_)
    exact .pure ⟨_, by simp [carriers], h.trans h'⟩

theorem branchAt_places (hw : Places walk) (s : Scope) (b : Nat) (p : Progress) :
    Ends (branchAt g d walk s b) p fun r q => ∃ cs, carriers r.1 = b :: cs ∧ Placed p q cs := by
  unfold branchAt
  split
  · split
    · exact .bind (arms_places hw _ _ _ _ _ p)
    · refine .get (.ite (fun _ => ?_) fun _ => .ite (fun _ => ?_) fun _ => ?_)
      · exact .bind ((hw _ false _ p (by simp)).mono fun items q h => .pure ⟨_, by simp [carriers], h⟩)
      · exact .bind ((hw _ false _ p (by simp)).mono fun items q h => .pure ⟨_, by simp [carriers], h⟩)
      · exact .bind (arms_places hw _ _ _ _ _ p)
  · exact ⟨[], rfl, .same rfl⟩
  · exact ⟨[], rfl, .same rfl⟩

theorem caseBody_places (hw : Places walk) (s : Scope) (merge next : Option Nat) (target : Nat) (p : Progress) :
    Ends (caseBody g walk s merge next target) p fun r q => Placed p q (carriers r) := by
  refine .ite (fun _ => .pure (.same rfl)) fun _ => .get (.ite (fun _ => jumpTo_places _ _ _ _) fun _ => ?_)
  exact .bind ((hw _ false _ p (by simp)).mono fun items q h => .pure (by simpa using h))

theorem caseBodies_length (g : Graph) (walk : Walk) (s : Scope) (merge : Option Nat) (entries : List Nat)
    (p : Progress) :
    Ends (caseBodies g walk s merge entries) p fun bodies _ => bodies.length = entries.length := by
  induction entries generalizing p with
  | nil => exact .pure rfl
  | cons target rest ih =>
      exact .bind (.any fun r q => .bind ((ih q).mono fun bodies q' h => .pure (congrArg Nat.succ h)))

theorem caseBodies_places (hw : Places walk) (s : Scope) (merge : Option Nat) (entries : List Nat) (p : Progress) :
    Ends (caseBodies g walk s merge entries) p fun bodies q => Placed p q (carriersOf bodies) := by
  induction entries generalizing p with
  | nil => exact .same rfl
  | cons target rest ih =>
      refine .bind ((caseBody_places hw s merge _ target p).mono fun r q h => ?_)
      exact .bind ((ih q).mono fun bodies q' h' => .pure (h.trans h'))

theorem carriersOfCases_zip (heads : List CaseHead) (bodies : List Region) (h : heads.length = bodies.length) :
    carriersOfCases (heads.zip bodies) = carriersOf bodies := by
  induction bodies generalizing heads with
  | nil => simp [carriersOfCases, carriersOf]
  | cons body bodies ih =>
      cases heads with
      | nil => simp at h
      | cons head heads => simp [carriersOfCases, carriersOf, ih heads (by simpa using h)]

theorem switchAt_places (hw : Places walk) (s : Scope) (b : Nat) (keys : List Int) (targets : List Nat) (p : Progress) :
    Ends (switchAt g d walk s b keys targets) p fun r q => ∃ cs, carriers r.1 = b :: cs ∧ Placed p q cs := by
  unfold switchAt
  split
  · exact ⟨[], rfl, .same rfl⟩
  · refine .bind (((caseBodies_length g walk _ _ _ p).and (caseBodies_places hw _ _ _ p)).mono fun bodies q h => ?_)
    refine .pure ⟨carriersOf bodies, ?_, h.2⟩
    simp only [carriers]
    rw [carriersOfCases_zip]
    simpa using h.1.symm

theorem handlerBody_places (hw : Places walk) (s : Scope) (b : Nat) (p : Progress) :
    Ends (handlerBody g walk s b) p fun r q => Placed p q (carriers r) := by
  refine .get (.ite (fun _ => jumpTo_places _ _ _ _) fun _ => ?_)
  exact .bind ((hw _ false _ p (by simp)).mono fun items q h => .pure (by simpa using h))

theorem catchesOf_places (hw : Places walk) (s : Scope) (seen : List Nat) (handlers : List HandlerBlock)
    (p : Progress) :
    Ends (catchesOf g walk s seen handlers) p fun catches q => Placed p q (carriersOfCatches catches) := by
  induction handlers generalizing seen p with
  | nil => exact .same rfl
  | cons handler rest ih =>
      refine .ite (fun _ => ih seen p) fun _ => ?_
      refine .bind ((handlerBody_places hw s handler.block p).mono fun r q h => ?_)
      exact .bind ((ih _ q).mono fun catches q' h' => .pure (h.trans h'))

theorem catchesOf_all (g : Graph) (walk : Walk) (s : Scope) (seen : List Nat) (handlers : List HandlerBlock)
    (p : Progress) :
    Ends (catchesOf g walk s seen handlers) p fun catches _ =>
      ∀ x ∈ handlers, x.block ∉ seen → ∃ c ∈ catches, c.1.block = x.block := by
  induction handlers generalizing seen p with
  | nil => exact .pure nofun
  | cons handler rest ih =>
      refine .ite (fun hseen => (ih seen p).mono fun catches q h =>
        List.forall_mem_cons.mpr ⟨fun hx => ?_, h⟩) fun _ => ?_
      · exact absurd (List.contains_iff_mem.mp hseen) hx
      · refine .bind (.any fun r q => .bind ((ih (handler.block :: seen) q).mono fun catches q' h => .pure ?_))
        refine List.forall_mem_cons.mpr ⟨fun _ => ⟨_, List.mem_cons_self, rfl⟩, fun x hx hout => ?_⟩
        by_cases hsame : x.block = handler.block
        · exact ⟨_, List.mem_cons_self, hsame.symm⟩
        · obtain ⟨c, hc, hblock⟩ := h x hx (by simp [hsame, hout])
          exact ⟨c, List.mem_cons_of_mem _ hc, hblock⟩

/-- A choice that keeps the best element or takes the next one ends with an element of the list. -/
theorem foldl_choice {α β : Type} {f : Option β → α → Option β} (of : β → α)
    (hf : ∀ best y, ∃ x, f best y = some x ∧ (of x = y ∨ best = some x)) (l : List α) (best : Option β) :
    (∃ x, l.foldl f best = some x ∧ (of x ∈ l ∨ best = some x)) ∨ l = [] ∧ best = none := by
  induction l generalizing best with
  | nil => exact best.casesOn (.inr ⟨rfl, rfl⟩) fun x => .inl ⟨x, rfl, .inr rfl⟩
  | cons y l ih =>
      obtain ⟨x, hx, hfrom⟩ := hf best y
      rw [List.foldl_cons, hx]
      rcases ih (some x) with ⟨z, hz, hl | hxz⟩ | ⟨-, hnone⟩
      · exact .inl ⟨z, hz, .inl (List.mem_cons_of_mem _ hl)⟩
      · obtain rfl : x = z := Option.some.inj hxz
        refine .inl ⟨x, hz, hfrom.imp (fun h => ?_) id⟩
        rw [h]
        exact List.mem_cons_self
      · cases hnone

/-- Of the ranges that start at a block, one that is left is taken as long as there is one. -/
theorem tryAt?_cases (g : Graph) (p : Progress) (b : Nat) :
    (∃ n t, tryAt? g p b = some (n, t) ∧ g.tries[n]? = some t ∧ n ∉ p.guarded ∧ t.covered.head? = some b) ∨
    (tryAt? g p b = none ∧ ∀ n t, g.tries[n]? = some t → t.covered.head? = some b → n ∈ p.guarded) := by
  unfold tryAt?
  generalize hl : g.tries.zipIdx.filter _ = l
  have hmem (x : TryRegion × Nat) :
    x ∈ l ↔ g.tries[x.2]? = some x.1 ∧ x.2 ∉ p.guarded ∧ x.1.covered.head? = some b := by
    rw [← hl, List.mem_filter, List.mem_zipIdx_iff_getElem?, Bool.and_eq_true, beq_iff_eq, Bool.not_eq_true',
      ← Bool.not_eq_true]
    rfl
  have hstep (best : Option (Nat × TryRegion)) (y : TryRegion × Nat) :
      ∃ x, largerTry best y = some x ∧ ((x.2, x.1) = y ∨ best = some x) := by
    cases best with
    | none => exact ⟨_, rfl, .inl rfl⟩
    | some z =>
        by_cases hle : z.2.covered.length ≤ y.1.covered.length
        · exact ⟨_, if_pos hle, .inl rfl⟩
        · exact ⟨_, if_neg hle, .inr rfl⟩
  rcases foldl_choice (fun x : Nat × TryRegion => (x.2, x.1)) hstep l none with ⟨⟨n, t⟩, hx, hl | hnone⟩ | ⟨rfl, -⟩
  · exact .inl ⟨n, t, hx, (hmem _).mp hl⟩
  · cases hnone
  · refine .inr ⟨rfl, fun n t ht hhead => ?_⟩
    by_contra hfree
    exact List.not_mem_nil ((hmem (t, n)).mpr ⟨ht, hfree, hhead⟩)

theorem tryAt?_covered {p : Progress} {b n : Nat} {t : TryRegion} (h : tryAt? g p b = some (n, t)) :
    t.covered.head? = some b := by
  rcases tryAt?_cases g p b with ⟨m, u, hsome, -, -, hhead⟩ | ⟨hnone, -⟩
  · obtain ⟨rfl, rfl⟩ : m = n ∧ u = t := by simpa [h, eq_comm] using hsome
    exact hhead
  · simp [h] at hnone

theorem tryRegionAt_places (hw : Places walk) (s : Scope) {asBody : Bool} {b n : Nat} {t : TryRegion} {p : Progress}
    (hb : asBody = true → b ∉ p.placed) (ht : t.covered.head? = some b) :
    Ends (tryRegionAt g walk s asBody n t) p fun r q => Placed p q (carriersOf r.1) := by
  unfold tryRegionAt
  refine .modify ?_
  split
  · exact .pure (.same rfl)
  · rename_i start rest hcovered
    obtain rfl : start = b := by simpa [hcovered] using ht
    refine .bind ((hw _ asBody start (p.guard n) hb).mono fun body q h => ?_)
    refine .bind ((catchesOf_places hw _ [] t.handlers q).mono fun catches q' h' => .pure ?_)
    simpa [carriersOf, carriers] using (Placed.same (p := p) (q := p.guard n) rfl).trans (h.trans h')

theorem loopItems_places (hw : Places walk) (s : Scope) {header : Nat} (latch inner : Option Nat) {p : Progress}
    (hb : header ∉ p.placed) :
    Ends (loopItems walk s header latch inner) p fun items q =>
      Placed p q ((if inner.isSome then [header] else []) ++ carriersOf items) := by
  unfold loopItems
  split
  · exact .modify ((hw s false _ _ (by simp)).mono fun items q h => (Placed.place hb).trans h)
  · refine .ite (fun _ => .modify (.pure ?_)) fun _ => ?_
    · simpa [carriersOf, carriers] using Placed.place hb
    · exact (hw s true header p fun _ => hb).mono fun items q h => by simpa using h

/-- Exactly the loops that test before each round begin with another block than their header. -/
theorem loopShape_inner (p : Progress) (l : Loop) :
    (loopShape g d p l).inner.isSome = true ↔ (loopShape g d p l).kind = .whileDo := by
  rcases loopShape_cases (g := g) (d := d) p l with ⟨_, _, _, h, -⟩ | ⟨_, _, _, h, -⟩ | h <;> simp [h]

theorem loopRegionAt_places (hw : Places walk) (s : Scope) {l : Loop} {p : Progress} (hb : l.header ∉ p.placed) :
    Ends (loopRegionAt g d walk s l) p fun r q => Placed p q (carriersOf r.1) := by
  refine .get (.bind ((loopItems_places hw _ _ _ hb).mono fun items q h => .pure ?_))
  have hinner := loopShape_inner (g := g) (d := d) p l
  simp only [carriersOf, List.append_nil]
  generalize loopShape g d p l = shape at h hinner ⊢
  obtain ⟨kind, cond, negated, exit, inner⟩ := shape
  cases kind <;> cases inner <;> simp_all [carriers]

theorem plainAt_places (hw : Places walk) (s : Scope) {b : Nat} {p : Progress} (hb : b ∉ p.placed) :
    Ends (plainAt g d walk s b) p fun r q => Placed p q (carriersOf r.1) := by
  have hone : Placed p (p.place b) (carriersOf [.block b]) := Placed.place hb
  have hheader {r : Region} {q : Progress} (h : ∃ cs, carriers r = b :: cs ∧ Placed (p.place b) q cs) :
      Placed p q (carriersOf [r]) := by
    obtain ⟨cs, hcs, hplaced⟩ := h
    simpa [carriersOf, hcs] using (Placed.place hb).trans hplaced
  refine .modify ?_
  split
  · exact .bind ((branchAt_places hw s b _).mono fun r q h => .pure (hheader h))
  · exact .bind ((switchAt_places hw s b _ _ _).mono fun r q h => .pure (hheader h))
  · exact .pure hone
  · exact .pure hone
  · exact .pure hone

theorem tryOrPlainAt_places (hw : Places walk) (s : Scope) (asBody : Bool) {b : Nat} {p : Progress}
    (hb : b ∉ p.placed) :
    Ends (tryOrPlainAt g d walk s asBody b) p fun r q => Placed p q (carriersOf r.1) := by
  refine .get ?_
  split
  · exact tryRegionAt_places hw s (fun _ => hb) (tryAt?_covered ‹_›)
  · exact plainAt_places hw s hb

theorem loopAt_places (hw : Places walk) (s : Scope) {l : Loop} {p : Progress} (hb : l.header ∉ p.placed) :
    Ends (loopAt g d walk s l) p fun r q => Placed p q (carriersOf r.1) := by
  refine .get ?_
  split
  · exact .ite (fun _ => loopRegionAt_places hw s hb) fun _ =>
      tryRegionAt_places hw s (fun _ => hb) (tryAt?_covered ‹_›)
  · exact loopRegionAt_places hw s hb

theorem jump?_carriers {b : Nat} {passed frames : List Frame} {r : Region} (h : Frame.jump? b passed frames = some r) :
    carriers r = [] := by
  induction frames generalizing passed with
  | nil => cases h
  | cons frame frames ih =>
      cases frame with
      | loop header exit body latch =>
          simp only [Frame.jump?] at h
          split at h
          · cases h
            rfl
          · split at h
            · cases h
              rfl
            · exact ih h
      | switch exit =>
          simp only [Frame.jump?] at h
          split at h
          · cases h
            rfl
          · exact ih h

theorem regionAt_places (hw : Places walk) (s : Scope) (b : Nat) (p : Progress) :
    Ends (regionAt g d walk s b) p fun r q => Placed p q (carriersOf r.1) := by
  unfold regionAt
  split
  · rename_i jump hjump
    refine .modify (.pure ?_)
    simpa [carriersOf, jump?_carriers hjump] using Placed.same (p.labelLoop_placed jump)
  · refine .get (.ite (fun h => ?_) fun _ => .ite (fun _ => ?_) fun _ => .ite (fun _ => ?_) fun hfree => ?_)
    · have hb : b ∉ p.placed := fun hb => by
        change p.placed.contains b = true at hb
        simp [hb] at h
      exact .modify (.pure (.place hb))
    · exact .bind ((leave_places hw _ b p).mono fun items q h => .pure h)
    · exact .bind ((jumpTo_places g b _ p).mono fun r q h => .pure (by simpa [carriersOf] using h))
    · split
      · rename_i l hl
        obtain rfl : l.header = b := by simpa using List.find?_some hl
        exact loopAt_places hw s hfree
      · exact tryOrPlainAt_places hw s false hfree

theorem follow_places (g : Graph) (d : Dominance) (depth : Nat) : Places (follow g d depth) := by
  induction depth with
  | zero => exact fun _ _ _ _ _ => .pure (.same rfl)
  | succ depth ih =>
      intro s asBody b p hb
      refine .ite (fun _ => .pure (.same rfl)) fun _ => ?_
      have hitems : Ends (if asBody then tryOrPlainAt g d (follow g d depth) s true b
          else regionAt g d (follow g d depth) s b) p fun r q => Placed p q (carriersOf r.1) :=
        .ite (fun h => tryOrPlainAt_places ih s true (hb h)) fun _ => regionAt_places ih s b p
      cases asBody <;> refine .bind (hitems.mono fun r q h => ?_)
      all_goals
        obtain ⟨items, next⟩ := r
        cases next with
        | none => exact .pure h
        | some n =>
            refine .bind ((ih s false n q (by simp)).mono fun more q' h' => .pure ?_)
            rw [carriersOf_append]
            exact h.trans h'

theorem rest_places (g : Graph) (d : Dominance) (bs : List Nat) (p : Progress) :
    Ends (rest g d bs) p fun items q => Placed p q (carriersOf items) := by
  induction bs generalizing p with
  | nil => exact .pure (.same rfl)
  | cons b bs ih =>
      refine .get (.ite (fun _ => ih p) fun _ => .modify (.bind ?_))
      refine (follow_places g d _ _ false b (p.label b) (by simp)).mono fun items q h => ?_
      refine .bind ((ih q).mono fun more q' h' => .pure ?_)
      rw [carriersOf_append]
      exact (Placed.same (p := p) (q := p.label b) rfl).trans (h.trans h')

theorem everything_places (g : Graph) (d : Dominance) (p : Progress) :
    Ends (everything g d) p fun items q => Placed p q (carriersOf items) := by
  refine .bind ((follow_places g d _ _ false _ p (by simp)).mono fun items q h => ?_)
  refine .bind ((rest_places g d _ q).mono fun more q' h' => .pure ?_)
  rw [carriersOf_append]
  exact h.trans h'

end Region

open Region

theorem Region.carriersOf_raw (bs : List Nat) : carriersOf (bs.map .raw) = bs := by
  induction bs with
  | nil => rfl
  | cons b bs ih => simp [carriersOf, carriers, ih]

/-- A region tree is that of the blocks in the order of the code, or what the walk from the entry has made. -/
theorem Structured.of_cases (g : Graph) :
    of g = ofBlocks g ∨ ∃ items p, (everything g (Dominance.of g)).run .start = (items, p) ∧
      of g = ⟨ofList items, p.labels, p.loopLabels, p.diagnostics, false⟩ := by
  unfold of
  by_cases hd : (Dominance.of g).irreducible = true
  · exact .inl (if_pos hd)
  · exact .inr ⟨_, _, rfl, if_neg hd⟩

theorem Structured.nodup_carriers (g : Graph) : (carriers (Structured.of g).root).Nodup := by
  obtain hof | ⟨items, p, hrun, hof⟩ := of_cases g
  · rw [hof]
    simp only [ofBlocks, carriers, carriersOf_raw]
    exact (List.mergeSort_perm _ _).nodup_iff.mpr List.nodup_range
  · have hplaced := everything_places g (Dominance.of g) .start
    rw [Ends, show everything g (Dominance.of g) .start = (items, p) from hrun] at hplaced
    rw [hof, carriers_ofList]
    exact hplaced.nodup

end JavaLift
