import JavaLift.Proofs.Region.Sealing
import JavaLift.Proofs.Region.Jumps

namespace JavaLift

open JavaLift.Frame Region

variable {g : Graph} {d : Dominance} {p q r : Progress} {a b k n : Nat} {t u : TryRegion} {bs cs : List Nat}

def Loop.DecidesFirst (g : Graph) (l : Loop) : Prop := (whileShape? g l).isSome = true ∨ l.decidesAt g l.header

/-- The block holds the comparison of a loop that has another header. -/
def Dominance.Closes (d : Dominance) (g : Graph) (b : Nat) : Prop := ∃ l ∈ d.loops, l.decidesAt g b ∧ l.header ≠ b

/-- Of two ranges that begin at one block, the first is taken no later: it is larger, or no smaller and not before the
other one in the table. -/
def NoLater (n : Nat) (u : TryRegion) (k : Nat) (t : TryRegion) : Prop :=
  t.covered.length < u.covered.length ∨ t.covered.length = u.covered.length ∧ k ≤ n

/-- If a loop decides at the first block of the range, then this range and those that are taken before it go beyond the
loop. -/
def Due (g : Graph) (d : Dominance) (k : Nat) (t : TryRegion) : Prop :=
  ∀ a l, t.covered.head? = some a → d.loopAt? a = some l → l.DecidesFirst g →
    ∀ n u, g.tries[n]? = some u → u.covered.head? = some a → NoLater n u k t → ¬ u.covered ⊆ l.body

theorem NoLater.refl (k : Nat) (t : TryRegion) : NoLater k t k t := .inr ⟨rfl, le_rfl⟩

theorem NoLater.antisymm (h : NoLater n u k t) (h' : NoLater k t n u) : n = k := by
  unfold NoLater at h h'
  omega

theorem Loop.decidesAt.eq {l : Loop} (h : l.decidesAt g a) (h' : l.decidesAt g b) : a = b := by
  obtain ⟨-, shape, hshape, ha⟩ := h
  obtain ⟨-, shape', hshape', hb⟩ := h'
  obtain rfl : shape = shape' := Option.some.inj (hshape.symm.trans hshape')
  exact Option.some.inj (ha.symm.trans hb)

theorem Loop.not_decidesFirst_of_endless {l : Loop} (h : (loopShape g d p l).kind = .endless) : ¬ l.DecidesFirst g := by
  unfold loopShape at h
  rintro (hwhile | ⟨hwhile, shape, hshape, -⟩)
  · obtain ⟨shape, hshape⟩ := Option.isSome_iff_exists.mp hwhile
    obtain ⟨_, _, _, rfl, -⟩ := whileShape?_eq hshape
    simp [hshape] at h
  · obtain ⟨_, _, _, rfl, -⟩ := doWhileShape?_eq hshape
    simp [hwhile, show doWhileShape? g l = some _ from hshape] at h

theorem Loop.decidesFirst_of_while {l : Loop} (h : (loopShape g d p l).kind = .whileDo) : l.DecidesFirst g := by
  unfold loopShape at h
  cases hwhile : whileShape? g l with
  | some shape => exact .inl (by rw [hwhile]; rfl)
  | none =>
      cases hdo : doWhileShape? g l with
      | none => simp [hwhile, hdo] at h
      | some shape =>
          obtain ⟨_, _, _, rfl, -⟩ := doWhileShape?_eq hdo
          simp [hwhile, hdo] at h

/-- A block that is all of a loop holds no comparison of another one. -/
theorem Dominance.not_closes_of_self (hlatches : ∀ l ∈ d.loops, l.latches ⊆ l.body) {l : Loop}
    (h : l.decidesAt g l.header) : ¬ d.Closes g l.header := by
  rintro ⟨l', hl', hdecides, hne⟩
  obtain ⟨negated, out, htests⟩ := h.testsLast
  obtain ⟨negated', out', htests'⟩ := hdecides.testsLast
  have hmore := htests.more
  have hmore' := htests'.more
  have hleaves' := htests'.leaves
  have hin : l.header ∈ l'.body := hlatches l' hl' (by rw [htests'.only]; exact List.mem_singleton.mpr rfl)
  have hout := htests'.out_out
  cases negated <;> cases negated' <;> simp_all

namespace Region

def plain? : Region → Option Nat
  | .block b => some b
  | _ => none

def plainOf (items : List Region) : List Nat := (nodesOf items).filterMap plain?

variable {items more : List Region}

theorem mem_plainOf : b ∈ plainOf items ↔ .block b ∈ nodesOf items := by
  refine List.mem_filterMap.trans ⟨fun ⟨r, hr, hb⟩ => ?_, fun h => ⟨_, h, rfl⟩⟩
  cases r with
  | block c =>
      obtain rfl : c = b := Option.some.inj hb
      exact hr
  | _ => cases hb

theorem plainOf_append (items more : List Region) : plainOf (items ++ more) = plainOf items ++ plainOf more := by
  simp [plainOf, nodesOf_append]

theorem plainOf_ofList (items : List Region) : plainOf [ofList items] = plainOf items := by
  unfold ofList
  split
  · rfl
  · simp [plainOf, nodesOf, nodes, plain?, List.filterMap_cons]

theorem plainOf_withoutLastContinue (items : List Region) : plainOf (withoutLastContinue items) = plainOf items := by
  rcases withoutLastContinue_cases items with hsame | hsplit
  · rw [hsame]
  · conv_rhs => rw [hsplit]
    rw [plainOf_append]
    simp [plainOf, nodesOf, nodes, plain?, List.filterMap_cons]

theorem plainOf_branch (b : Nat) (negated : Bool) (items : List Region) :
    plainOf [.branch b negated (ofList items) none] = plainOf items := by
  rw [← plainOf_ofList items]
  simp [plainOf, nodesOf, nodes, plain?, List.filterMap_cons]

theorem plainOf_branchElse (b : Nat) (negated : Bool) (items more : List Region) :
    plainOf [.branch b negated (ofList items) (some (ofList more))] = plainOf items ++ plainOf more := by
  rw [← plainOf_ofList items, ← plainOf_ofList more]
  simp [plainOf, nodesOf, nodes, plain?, List.filterMap_cons]

theorem plainOf_loop (kind : LoopKind) (header : Nat) (cond : Option Nat) (negated : Bool) (items : List Region) :
    plainOf [.loop kind header cond negated (ofList (withoutLastContinue items))] = plainOf items := by
  rw [← plainOf_withoutLastContinue items, ← plainOf_ofList (withoutLastContinue items)]
  simp [plainOf, nodesOf, nodes, plain?, List.filterMap_cons]

theorem plainOf_switch (b : Nat) {heads : List CaseHead} {bodies : List Region} (h : heads.length = bodies.length) :
    plainOf [.switch b (heads.zip bodies)] = plainOf bodies := by
  simp [plainOf, nodesOf, nodes, plain?, List.filterMap_cons, nodesOfCases_zip _ _ h]

theorem plainOf_guarded (items : List Region) (catches : List (CatchHead × Region)) :
    plainOf [.guarded (ofList items) catches] = plainOf items ++ plainOf (catches.map (·.2)) := by
  rw [← plainOf_ofList items]
  simp [plainOf, nodesOf, nodes, plain?, List.filterMap_cons, nodesOfCatches_eq]

theorem plainOf_jump {frames : List Frame} {r : Region} (h : jump? b [] frames = some r) : plainOf [r] = [] := by
  obtain ⟨inner, f, outer, -, hworded⟩ := worded_of_jump? h
  cases hworded <;> rfl

end Region

theorem foldl_largerTry {l : List (TryRegion × Nat)} (hl : l.Pairwise fun x y => x.2 < y.2)
    {best : Option (Nat × TryRegion)} (hbest : ∀ x ∈ best, ∀ y ∈ l, x.1 < y.2)
    (h : l.foldl largerTry best = some (n, t)) :
    (∀ x ∈ best, NoLater n t x.1 x.2) ∧ ∀ y ∈ l, NoLater n t y.2 y.1 := by
  induction l generalizing best with
  | nil =>
      obtain rfl : best = some (n, t) := h
      refine ⟨?_, nofun⟩
      rintro x ⟨⟩
      exact .refl n t
  | cons y l ih =>
      obtain ⟨hy, hrest⟩ := List.pairwise_cons.mp hl
      obtain ⟨u, k⟩ := y
      cases best with
      | none =>
          obtain ⟨hfirst, hlater⟩ := ih hrest (by rintro x ⟨⟩; exact hy) h
          exact ⟨nofun, List.forall_mem_cons.mpr ⟨hfirst _ rfl, hlater⟩⟩
      | some x =>
          obtain ⟨m, v⟩ := x
          have hlt : m < k := hbest _ rfl _ List.mem_cons_self
          rw [List.foldl_cons, largerTry] at h
          split at h
          · rename_i hle
            obtain ⟨hfirst, hlater⟩ := ih hrest (by rintro x ⟨⟩; exact hy) h
            refine ⟨?_, List.forall_mem_cons.mpr ⟨hfirst _ rfl, hlater⟩⟩
            rintro x ⟨⟩
            have := hfirst _ rfl
            simp only [NoLater] at this ⊢
            omega
          · rename_i hle
            obtain ⟨hfirst, hlater⟩ := ih hrest
              (by rintro x ⟨⟩ y hy'; exact hbest _ rfl y (List.mem_cons_of_mem _ hy')) h
            refine ⟨hfirst, List.forall_mem_cons.mpr ⟨?_, hlater⟩⟩
            have := hfirst _ rfl
            simp only [NoLater] at this ⊢
            omega

/-- Of the ranges that begin at a block and have not been opened, the one that is taken comes first. -/
theorem tryAt?_noLater (h : tryAt? g p b = some (n, t)) (hu : g.tries[k]? = some u) (hfree : k ∉ p.guarded)
    (hhead : u.covered.head? = some b) : NoLater n t k u := by
  refine (foldl_largerTry ?_ ?_ h).2 (u, k) ?_
  · refine List.Pairwise.sublist List.filter_sublist (List.pairwise_map.mp ?_)
    rw [List.zipIdx_map_snd, ← List.range_eq_range']
    exact List.pairwise_lt_range
  · simp
  · rw [List.mem_filter, List.mem_zipIdx_iff_getElem?, Bool.and_eq_true, beq_iff_eq, Bool.not_eq_true', ← Bool.not_eq_true]
    exact ⟨hu, hfree, hhead⟩

/-- What a walk has built between two states: a range is opened only together with its first block, and of those that
begin at a block that has been placed just the ones are open that are due, or none if the block stands by itself and only
holds the comparison of a loop. -/
structure Opening (g : Graph) (d : Dominance) (p q : Progress) (bs : List Nat) : Prop where
  placed : ∀ b ∈ p.placed, b ∈ q.placed
  guarded : ∀ k ∈ p.guarded, k ∈ q.guarded
  plain : ∀ b ∈ bs, b ∉ p.placed ∧ b ∈ q.placed
  only : ∀ k t a, g.tries[k]? = some t → t.covered.head? = some a → k ∈ q.guarded →
    k ∈ p.guarded ∨ a ∉ p.placed ∧ a ∈ q.placed
  opened : ∀ a, a ∉ p.placed → a ∈ q.placed → ∀ k t, g.tries[k]? = some t → t.covered.head? = some a →
    (k ∈ q.guarded ↔ Due g d k t ∧ ¬ (a ∈ bs ∧ d.Closes g a))

def Waits (g : Graph) (p : Progress) : Prop :=
  ∀ k t a, g.tries[k]? = some t → t.covered.head? = some a → k ∈ p.guarded → a ∈ p.placed

def WaitsAt (g : Graph) (d : Dominance) (latch : Option Nat) (b : Nat) (p : Progress) : Prop :=
  ∀ k t a, g.tries[k]? = some t → t.covered.head? = some a → k ∈ p.guarded →
    a ∈ p.placed ∨ a = b ∧ latch ≠ some b ∧ Due g d k t

theorem Waits.at (h : Waits g p) (latch : Option Nat) (b : Nat) : WaitsAt g d latch b p :=
  fun k t a ht ha hk => .inl (h k t a ht ha hk)

theorem WaitsAt.outermost {latch : Option Nat} (h : WaitsAt g d latch b p) : WaitsAt g d none b p :=
  fun k t a ht ha hk => (h k t a ht ha hk).imp_right fun h => ⟨h.1, nofun, h.2.2⟩

theorem WaitsAt.due {latch : Option Nat} (h : WaitsAt g d latch b p) (hb : b ∉ p.placed) (ht : g.tries[k]? = some t)
    (hhead : t.covered.head? = some b) (hk : k ∈ p.guarded) : latch ≠ some b ∧ Due g d k t :=
  ((h k t b ht hhead hk).resolve_left hb).2

theorem WaitsAt.place {latch : Option Nat} (h : WaitsAt g d latch b p) : Waits g (p.place b) := by
  intro k t a ht ha hk
  exact Progress.mem_place.mpr ((h k t a ht ha hk).imp_right fun h => h.1.symm)

namespace Opening

theorem same (hplaced : q.placed = p.placed) (hguarded : q.guarded = p.guarded) :
    Opening g d p q [] where
  placed _ hb := hplaced ▸ hb
  guarded _ hk := hguarded ▸ hk
  plain := nofun
  only _ _ _ _ _ hk := .inl (hguarded ▸ hk)
  opened _ ha ha' := absurd (hplaced ▸ ha') ha

theorem trans (h : Opening g d p q bs) (h' : Opening g d q r cs) : Opening g d p r (bs ++ cs) where
  placed b hb := h'.placed b (h.placed b hb)
  guarded k hk := h'.guarded k (h.guarded k hk)
  plain b hb := by
    rcases List.mem_append.mp hb with hb | hb
    · exact ⟨(h.plain b hb).1, h'.placed b (h.plain b hb).2⟩
    · exact ⟨fun hp => (h'.plain b hb).1 (h.placed b hp), (h'.plain b hb).2⟩
  only k t a ht ha hk := by
    rcases h'.only k t a ht ha hk with hk | ⟨hout, hin⟩
    · exact (h.only k t a ht ha hk).imp_right fun ha => ⟨ha.1, h'.placed a ha.2⟩
    · exact .inr ⟨fun hp => hout (h.placed a hp), hin⟩
  opened a ha ha' k t ht hhead := by
    by_cases hq : a ∈ q.placed
    · have hcs : a ∉ cs := fun hcs => (h'.plain a hcs).1 hq
      have hlater : k ∈ r.guarded ↔ k ∈ q.guarded :=
        ⟨fun hk => (h'.only k t a ht hhead hk).resolve_right fun hout => hout.1 hq, h'.guarded k⟩
      rw [hlater, h.opened a ha hq k t ht hhead, List.mem_append, or_iff_left hcs]
    · have hbs : a ∉ bs := fun hbs => hq (h.plain a hbs).2
      rw [h'.opened a hq ha' k t ht hhead, List.mem_append, or_iff_right hbs]

theorem place (hb : b ∉ p.placed) (hbs : bs ⊆ [b])
    (hopened : ∀ k t, g.tries[k]? = some t → t.covered.head? = some b →
      (k ∈ p.guarded ↔ Due g d k t ∧ ¬ (b ∈ bs ∧ d.Closes g b))) : Opening g d p (p.place b) bs where
  placed _ ha := Progress.mem_place.mpr (.inl ha)
  guarded _ hk := hk
  plain a ha := by
    obtain rfl := List.mem_singleton.mp (hbs ha)
    exact ⟨hb, Progress.mem_place.mpr (.inr rfl)⟩
  only _ _ _ _ _ hk := .inl hk
  opened a ha ha' k t ht hhead := by
    obtain rfl := (Progress.mem_place.mp ha').resolve_left ha
    exact hopened k t ht hhead

theorem guard (h : Opening g d (p.guard n) q bs) (ht : g.tries[n]? = some t) (hhead : t.covered.head? = some b)
    (hb : b ∉ p.placed) (hb' : b ∈ q.placed) : Opening g d p q bs where
  placed := h.placed
  guarded k hk := h.guarded k (mem_guard.mpr (.inl hk))
  plain := h.plain
  only k u a hu ha hk := by
    rcases h.only k u a hu ha hk with hk | ha
    · rcases mem_guard.mp hk with hk | rfl
      · exact .inl hk
      · obtain rfl : t = u := Option.some.inj (ht.symm.trans hu)
        obtain rfl : b = a := Option.some.inj (hhead.symm.trans ha)
        exact .inr ⟨hb, hb'⟩
    · exact .inr ha
  opened := h.opened

theorem waits (h : Opening g d p q bs) {latch : Option Nat} (hp : WaitsAt g d latch b p) (hb : b ∈ q.placed) :
    Waits g q := by
  intro k t a ht ha hk
  rcases h.only k t a ht ha hk with hk | ha
  · rcases hp k t a ht ha hk with ha | ⟨rfl, -⟩
    · exact h.placed a ha
    · exact hb
  · exact ha.2

theorem waits_of (h : Opening g d p q bs) (hp : Waits g p) : Waits g q := fun k t a ht ha hk =>
  (h.only k t a ht ha hk).elim (fun hk => h.placed a (hp k t a ht ha hk)) And.right

end Opening

namespace Region

variable {walk : Walk} {s : Scope}

structure Startable (g : Graph) (d : Dominance) (s : Scope) (asBody : Bool) (b : Nat) (p : Progress) : Prop where
  closes : ∀ header exit body latch, .loop header exit body (some latch) ∈ s.frames → d.Closes g latch
  body : asBody = true → b ∉ p.placed ∧ s.latch? ≠ some b ∧ ∀ l, d.loopAt? b = some l → ¬ l.DecidesFirst g

/-- If no remark has been left in the end, none had been left before, and the statement holds. -/
def Quietly (p q : Progress) (P : Prop) : Prop := q.diagnostics = [] → p.diagnostics = [] ∧ P

theorem Quietly.same {P : Prop} (hdiagnostics : q.diagnostics = p.diagnostics) (h : P) : Quietly p q P :=
  fun hquiet => ⟨hdiagnostics ▸ hquiet, h⟩

theorem Quietly.mono {P Q : Prop} (h : Quietly p q P) (hPQ : P → Q) : Quietly p q Q := fun hquiet =>
  (h hquiet).imp_right hPQ

theorem Quietly.trans {P Q R : Prop} (h : Quietly p q P) (h' : Quietly q r Q) (hR : P → Q → R) : Quietly p r R := by
  intro hquiet
  obtain ⟨hq, hQ⟩ := h' hquiet
  obtain ⟨hp, hP⟩ := h hq
  exact ⟨hp, hR hP hQ⟩

theorem Quietly.absurd {P : Prop} (h : q.diagnostics ≠ []) : Quietly p q P := fun hquiet => (h hquiet).elim

/-- A walk that leaves no remark opens the ranges that are due. It places the block it begins at, unless it ends there. -/
def Opens (g : Graph) (d : Dominance) (walk : Walk) : Prop :=
  ∀ s asBody b p, Startable g d s asBody b p → Ends (walk s asBody b) p fun items q =>
    Quietly p q (WaitsAt g d s.latch? b p → Opening g d p q (plainOf items) ∧
      (asBody = true ∨ jump? b [] s.frames = none ∧ s.follow ≠ some b → b ∈ q.placed))

/-- A construct that is built after its first block has been placed. A block by itself holds no comparison of a loop. -/
def Grown (g : Graph) (d : Dominance) (b : Nat) (p : Progress) (r : Region) (q : Progress) : Prop :=
  r = .block b ∧ q = p ∧ ¬ d.Closes g b ∨ Opening g d p q (plainOf [r])

def Begun (g : Graph) (d : Dominance) (b : Nat) (p : Progress) (items : List Region) (q : Progress) : Prop :=
  Opening g d p q (plainOf items) ∧ b ∈ q.placed

section

variable (hw : Opens g d walk)
include hw

theorem leave_opens {latch : Option Nat} (fromTry : Bool) (b : Nat) (p : Progress) :
    Ends (leave g d walk fromTry b) p fun items q => Quietly p q (WaitsAt g d latch b p → Begun g d b p items q) := by
  refine .get (.ite (fun _ => ?_) fun _ => .bind ((jumpTo_remarks b _ p).mono fun r q h => .pure (.absurd h)))
  exact (hw .outermost false b p ⟨nofun, nofun⟩).mono fun items q h => h.mono fun h hp =>
    (h hp.outermost).imp_right fun h => h (.inr ⟨rfl, nofun⟩)

variable (hs : ∀ header exit body latch, .loop header exit body (some latch) ∈ s.frames → d.Closes g latch)
include hs

theorem walk_opens (b : Nat) (follow : Option Nat) (p : Progress) :
    Ends (walk { s with follow := follow } false b) p fun items q =>
      Quietly p q (Waits g p → Opening g d p q (plainOf items)) :=
  (hw { s with follow := follow } false b p ⟨hs, nofun⟩).mono fun _ _ h => h.mono fun h hp => (h (hp.at _ b)).1

theorem arms_opens (b fall target : Nat) (merge : Option Nat) (p : Progress) :
    Ends (arms walk s b fall target merge) p fun r q => Quietly p q (Waits g p → Opening g d p q (plainOf [r])) := by
  refine .ite (fun _ => ?_) fun _ => .ite (fun _ => ?_) fun _ => ?_
  · refine .bind ((walk_opens hw hs fall merge p).mono fun items q h => .pure ?_)
    rwa [plainOf_branch]
  · refine .bind ((walk_opens hw hs target merge p).mono fun items q h => .pure ?_)
    rwa [plainOf_branch]
  · refine .bind ((walk_opens hw hs fall merge p).mono fun items q h => ?_)
    refine .bind ((walk_opens hw hs target merge q).mono fun more r h' => .pure ?_)
    rw [plainOf_branchElse]
    exact h.trans h' fun h h' hp => (h hp).trans (h' ((h hp).waits_of hp))

theorem branchAt_opens (b : Nat) (p : Progress) :
    Ends (branchAt g d walk s b) p fun r q => Quietly p q (Waits g p → Grown g d b p r.1 q) := by
  have hnowhere (hnone : ∀ holds, g.branchTo b holds = none) :
      Quietly p p (Waits g p → Grown g d b p (.block b) p) := by
    refine .same rfl fun _ => .inl ⟨rfl, rfl, ?_⟩
    rintro ⟨l, -, hdecides, -⟩
    obtain ⟨negated, out, htests⟩ := hdecides.testsLast
    simpa [hnone] using htests.leaves
  unfold branchAt
  split
  · rename_i fall target hsuccs
    split
    · exact .bind ((arms_opens hw hs b fall target _ p).mono fun r q h => .pure (h.mono fun h hp => .inr (h hp)))
    · refine .get (.ite (fun _ => ?_) fun _ => .ite (fun _ => ?_) fun _ => ?_)
      · refine .bind ((walk_opens hw hs target none p).mono fun items q h => .pure (h.mono fun h hp => .inr ?_))
        rw [plainOf_branch]
        exact h hp
      · refine .bind ((walk_opens hw hs fall none p).mono fun items q h => .pure (h.mono fun h hp => .inr ?_))
        rw [plainOf_branch]
        exact h hp
      · exact .bind ((arms_opens hw hs b fall target _ p).mono fun r q h => .pure (h.mono fun h hp => .inr (h hp)))
  · exact .pure (.same rfl fun _ => .inr (.same rfl rfl))
  · rename_i hne hne'
    refine .pure (hnowhere fun holds => ?_)
    unfold Graph.branchTo
    split
    · exact (hne _ _ ‹_›).elim
    · exact (hne' _ ‹_›).elim
    · rfl

theorem caseBody_opens (merge next : Option Nat) (target : Nat) (p : Progress) :
    Ends (caseBody g walk s merge next target) p fun r q =>
      Quietly p q (Waits g p → Opening g d p q (plainOf [r])) := by
  refine .ite (fun _ => .pure (.same rfl fun _ => .same rfl rfl)) fun _ => .get (.ite (fun _ => ?_) fun _ => ?_)
  · exact (jumpTo_remarks target _ p).mono fun r q h => .absurd h
  · refine .bind ((walk_opens hw hs target next p).mono fun items q h => .pure ?_)
    rwa [plainOf_ofList]

theorem caseBodies_opens (merge : Option Nat) (entries : List Nat) (p : Progress) :
    Ends (caseBodies g walk s merge entries) p fun bodies q =>
      Quietly p q (Waits g p → Opening g d p q (plainOf bodies)) := by
  induction entries generalizing p with
  | nil => exact .pure (.same rfl fun _ => .same rfl rfl)
  | cons target rest ih =>
      refine .bind ((caseBody_opens hw hs merge rest.head? target p).mono fun r q h => ?_)
      refine .bind ((ih q).mono fun bodies q' h' => .pure (h.trans h' fun h h' hp => ?_))
      exact (plainOf_append [r] bodies).symm ▸ (h hp).trans (h' ((h hp).waits_of hp))

theorem switchAt_opens {b : Nat} {keys : List Int} {targets : List Nat} {default : Option Nat}
    (hop : (g.block b).exitOp? = some (.switchOn keys targets default)) (p : Progress) :
    Ends (switchAt g d walk s b keys targets) p fun r q => Quietly p q (Waits g p → Grown g d b p r.1 q) := by
  unfold switchAt
  split
  · refine .pure (.same rfl fun _ => .inl ⟨rfl, rfl, ?_⟩)
    rintro ⟨l, -, hdecides, -⟩
    obtain ⟨negated, out, htests⟩ := hdecides.testsLast
    simpa [Block.endsInIf_eq, hop, Op.isIf] using htests.ends
  · have hframes (header : Nat) (exit : Option Nat) (body : List Nat) (latch : Nat)
        (hf : .loop header exit body (some latch) ∈ Frame.switch (mergeOf d s b) :: s.frames) : d.Closes g latch :=
      hs header exit body latch ((List.mem_cons.mp hf).resolve_left Frame.noConfusion)
    refine .bind (((caseBodies_opens hw hframes (mergeOf d s b) _ p).and
      (caseBodies_length g walk _ _ _ p)).mono fun bodies q h => .pure (h.1.mono fun hbodies hp => .inr ?_))
    rw [plainOf_switch b (by rw [List.length_map, h.2])]
    exact hbodies hp

theorem handlerBody_opens (b : Nat) (p : Progress) :
    Ends (handlerBody g walk s b) p fun r q => Quietly p q (Waits g p → Opening g d p q (plainOf [r])) := by
  refine .get (.ite (fun _ => (jumpTo_remarks b _ p).mono fun r q h => .absurd h) fun _ => ?_)
  refine .bind ((walk_opens hw hs b s.follow p).mono fun items q h => .pure ?_)
  rwa [plainOf_ofList]

theorem catchesOf_opens (seen : List Nat) (handlers : List HandlerBlock) (p : Progress) :
    Ends (catchesOf g walk s seen handlers) p fun catches q =>
      Quietly p q (Waits g p → Opening g d p q (plainOf (catches.map (·.2)))) := by
  induction handlers generalizing seen p with
  | nil => exact .pure (.same rfl fun _ => .same rfl rfl)
  | cons handler rest ih =>
      refine .ite (fun _ => ih seen p) fun _ => ?_
      refine .bind ((handlerBody_opens hw hs handler.block p).mono fun r q h => ?_)
      refine .bind ((ih (handler.block :: seen) q).mono fun catches q' h' => .pure (h.trans h' fun h h' hp => ?_))
      exact (plainOf_append [r] (catches.map (·.2))).symm ▸ (h hp).trans (h' ((h hp).waits_of hp))

structure Enterable (s : Scope) (asBody : Bool) (b : Nat) (p : Progress) : Prop where
  fresh : b ∉ p.placed
  latch : s.latch? ≠ some b
  entered : asBody = true ∨ jump? b [] s.frames = none

theorem tryRegionAt_opens {asBody : Bool} (ht : g.tries[n]? = some t) (hhead : t.covered.head? = some b)
    (hb : Enterable s asBody b p) (hloop : asBody = true → ∀ l, d.loopAt? b = some l → ¬ l.DecidesFirst g)
    (hdue : WaitsAt g d s.latch? b p → Due g d n t) :
    Ends (tryRegionAt g walk s asBody n t) p fun r q =>
      Quietly p q (WaitsAt g d s.latch? b p → Begun g d b p r.1 q) := by
  have hcovered : b ∈ t.covered := List.mem_of_mem_head? hhead
  have hmerge : (exitOfTry? g t).filter s.accepts ≠ some b := by
    intro hm
    have hexit := List.mem_mergeSort.mp (List.mem_of_mem_head? (Option.filter_eq_some_iff.mp hm).1)
    simp [hcovered] at hexit
  unfold tryRegionAt
  refine .modify ?_
  cases hlist : t.covered with
  | nil => simp [hlist] at hcovered
  | cons start rest =>
      obtain rfl : start = b := by simpa [hlist] using hhead
      refine .bind ((hw ⟨(exitOfTry? g t).filter s.accepts, s.frames, some _⟩ asBody start (p.guard n)
        ⟨hs, fun hasBody => ⟨hb.fresh, hb.latch, hloop hasBody⟩⟩).mono fun body q h => ?_)
      refine .bind ((catchesOf_opens (s := { s with follow := (exitOfTry? g t).filter s.accepts })
        hw hs [] t.handlers q).mono fun catches q' h' => .pure ?_)
      have hboth : Quietly (p.guard n) q' (WaitsAt g d s.latch? start p →
          Begun g d start p [.guarded (ofList body) catches] q') := by
        refine h.trans h' fun h h' hp => ?_
        have hguard : WaitsAt g d s.latch? start (p.guard n) := by
          intro k u a hu ha hk
          rcases mem_guard.mp hk with hk | rfl
          · exact hp k u a hu ha hk
          · obtain rfl : t = u := Option.some.inj (ht.symm.trans hu)
            obtain rfl : start = a := Option.some.inj (hhead.symm.trans ha)
            exact .inr ⟨rfl, hb.latch, hdue hp⟩
        obtain ⟨hbody, hstart⟩ := h hguard
        have hin := hstart (hb.entered.imp_right fun hjump => ⟨hjump, hmerge⟩)
        have hcatches := h' (hbody.waits hguard hin)
        rw [Begun, plainOf_guarded]
        exact ⟨(hbody.trans hcatches).guard ht hhead hb.fresh (hcatches.placed start hin), hcatches.placed start hin⟩
      exact hboth

omit hs in
def Settled (g : Graph) (d : Dominance) (b : Nat) (p : Progress) : Prop :=
  ∀ k t, g.tries[k]? = some t → t.covered.head? = some b → (k ∈ p.guarded ↔ Due g d k t)

omit hw hs in
theorem Settled.place (h : Settled g d b p) (hb : b ∉ p.placed) (hbs : bs ⊆ [b]) (hcloses : b ∈ bs → ¬ d.Closes g b) :
    Opening g d p (p.place b) bs :=
  .place hb hbs fun k t ht hhead => (h k t ht hhead).trans (and_iff_left fun h => hcloses h.1 h.2).symm

theorem loopRegionAt_opens (hlatches : ∀ l ∈ d.loops, l.latches ⊆ l.body) {l : Loop} (hl : d.loopAt? l.header = some l)
    (hb : l.header ∉ p.placed)
    (hsettled : l.DecidesFirst g → WaitsAt g d s.latch? l.header p → Settled g d l.header p) :
    Ends (loopRegionAt g d walk s l) p fun r q =>
      Quietly p q (WaitsAt g d s.latch? l.header p → Begun g d l.header p r.1 q) := by
  have hmem : l ∈ d.loops := List.mem_of_find?_eq_some hl
  have hframes {exit : Option Nat} (header : Nat) (exit' : Option Nat) (body : List Nat) (latch : Nat)
      (hf : .loop header exit' body (some latch) ∈ Frame.loop l.header exit l.body none :: s.frames) :
      d.Closes g latch :=
    hs header exit' body latch ((List.mem_cons.mp hf).resolve_left nofun)
  -- A body that begins at the header of a loop that does not decide there.
  have hbody {kind : LoopKind} {cond exit : Option Nat} {negated : Bool} (hfirst : ¬ l.DecidesFirst g)
      (latch : Option Nat) (hlatch : latch ≠ some l.header)
      (hf : ∀ header exit' body latch', .loop header exit' body (some latch') ∈
        Frame.loop l.header exit l.body latch :: s.frames → d.Closes g latch') :
      Ends (walk ⟨none, .loop l.header exit l.body latch :: s.frames, s.allowed⟩ true l.header) p fun items q =>
        Quietly p q (WaitsAt g d s.latch? l.header p →
          Begun g d l.header p [.loop kind l.header cond negated (ofList (withoutLastContinue items))] q) := by
    have hloop : ∀ l', d.loopAt? l.header = some l' → ¬ l'.DecidesFirst g := fun l' hl' =>
      Option.some.inj (hl.symm.trans hl') ▸ hfirst
    refine (hw ⟨none, .loop l.header exit l.body latch :: s.frames, s.allowed⟩ true l.header p
      ⟨hf, fun _ => ⟨hb, hlatch, hloop⟩⟩).mono fun items q h => h.mono fun h hp => ?_
    rw [Begun, plainOf_loop]
    refine (h fun k t a ht ha hk => ?_).imp_right fun h => h (.inl rfl)
    exact (hp k t a ht ha hk).imp_right fun h => ⟨h.1, hlatch, h.2.2⟩
  refine .get ?_
  rcases loopShape_cases (g := g) (d := d) p l with ⟨negated, out, inner, hshape, htests⟩ |
    ⟨latch, negated, out, hshape, htests, hdecides⟩ | hshape <;> rw [hshape]
  · have hfirst : l.DecidesFirst g := Loop.decidesFirst_of_while (by rw [hshape])
    refine .bind (.modify ((hw _ false inner (p.place l.header) ⟨hframes, nofun⟩).mono fun items q h => .pure (h.mono fun h hp => ?_)))
    have hplaced := (hsettled hfirst hp).place hb (List.nil_subset _) nofun
    have hrest := (h (hp.place.at _ _)).1
    rw [Begun, plainOf_loop]
    exact ⟨hplaced.trans hrest, hrest.placed _ (Progress.mem_place.mpr (.inr rfl))⟩
  · refine .bind (.ite (fun hself => .modify (.pure (.pure (.same rfl fun hp => ?_)))) fun hself => ?_)
    · obtain rfl : latch = l.header := Option.some.inj hself
      rw [Begun, plainOf_loop]
      refine ⟨(hsettled (.inr hdecides) hp).place hb (by simp [plainOf, nodesOf, nodes, plain?]) fun _ => ?_,
        Progress.mem_place.mpr (.inr rfl)⟩
      exact d.not_closes_of_self hlatches hdecides
    · refine (hbody (fun hfirst => ?_) (some latch) hself fun header exit body latch' hf => ?_).mono fun items q h => .pure h
      · rcases hfirst with hwhile | hfirst
        · simp [hdecides.1] at hwhile
        · exact hself (congrArg some (hdecides.eq hfirst))
      · rcases List.mem_cons.mp hf with hf | hf
        · cases hf
          exact ⟨l, hmem, hdecides, fun h => hself (congrArg some h.symm)⟩
        · exact hs header exit body latch' hf
  · have hfirst : ¬ l.DecidesFirst g := Loop.not_decidesFirst_of_endless (by rw [hshape])
    exact .bind ((hbody hfirst none (Option.some_ne_none _).symm hframes).mono fun items q h => .pure h)

theorem plainAt_opens (hb : b ∉ p.placed) (hsettled : WaitsAt g d s.latch? b p → Settled g d b p) :
    Ends (plainAt g d walk s b) p fun r q => Quietly p q (WaitsAt g d s.latch? b p → Begun g d b p r.1 q) := by
  have hgrown {r : Region} {q : Progress} (h : Quietly (p.place b) q (Waits g (p.place b) → Grown g d b (p.place b) r q)) :
      Quietly p q (WaitsAt g d s.latch? b p → Begun g d b p [r] q) := by
    refine fun hquiet => (h hquiet).imp_right fun h hp => ?_
    rcases h hp.place with ⟨rfl, rfl, hcloses⟩ | hrest
    · exact ⟨(hsettled hp).place hb (by simp [plainOf, nodesOf, nodes, plain?]) fun _ => hcloses,
        Progress.mem_place.mpr (.inr rfl)⟩
    · exact ⟨((hsettled hp).place hb (List.nil_subset _) fun hnil => absurd hnil List.not_mem_nil).trans hrest,
        hrest.placed _ (Progress.mem_place.mpr (.inr rfl))⟩
  have hblock (hend : (g.block b).endsInIf = false) :
      Quietly p (p.place b) (WaitsAt g d s.latch? b p → Begun g d b p [.block b] (p.place b)) := by
    refine hgrown (.same rfl fun _ => .inl ⟨rfl, rfl, ?_⟩)
    rintro ⟨l, -, hdecides, -⟩
    obtain ⟨negated, out, htests⟩ := hdecides.testsLast
    simpa [hend] using htests.ends
  refine .modify ?_
  cases hop : (g.block b).exitOp? with
  | none => exact .pure (hblock (by simp [Block.endsInIf_eq, hop]))
  | some op =>
      cases op with
      | jumpIf c target => exact .bind ((branchAt_opens hw hs b _).mono fun r q h => .pure (hgrown h))
      | switchOn keys targets default => exact .bind ((switchAt_opens hw hs hop _).mono fun r q h => .pure (hgrown h))
      | _ => exact .pure (hblock (by simp [Block.endsInIf_eq, hop, Op.isIf]))

theorem tryOrPlainAt_opens {asBody : Bool} (hb : Enterable s asBody b p)
    (hloop : ∀ l, d.loopAt? b = some l → ¬ l.DecidesFirst g) :
    Ends (tryOrPlainAt g d walk s asBody b) p fun r q =>
      Quietly p q (WaitsAt g d s.latch? b p → Begun g d b p r.1 q) := by
  have hdue {k : Nat} {t : TryRegion} (hhead : t.covered.head? = some b) : Due g d k t := by
    intro a l ha hl hfirst
    obtain rfl : b = a := Option.some.inj (hhead.symm.trans ha)
    exact absurd hfirst (hloop l hl)
  refine .get ?_
  rcases tryAt?_cases g p b with ⟨n, t, hsome, ht, -, hhead⟩ | ⟨hnone, hall⟩
  · rw [hsome]
    exact tryRegionAt_opens hw hs ht hhead hb (fun _ => hloop) fun _ => hdue hhead
  · rw [hnone]
    exact plainAt_opens hw hs hb.fresh fun _ k t ht hhead => iff_of_true (hall k t ht hhead) (hdue hhead)

theorem loopAt_opens (hlatches : ∀ l ∈ d.loops, l.latches ⊆ l.body) {l : Loop} (hl : d.loopAt? l.header = some l)
    (hb : Enterable s false l.header p) :
    Ends (loopAt g d walk s l) p fun r q =>
      Quietly p q (WaitsAt g d s.latch? l.header p → Begun g d l.header p r.1 q) := by
  refine .get ?_
  rcases tryAt?_cases g p l.header with ⟨n, t, hsome, ht, -, hhead⟩ | ⟨hnone, hall⟩
  · rw [hsome]
    refine .ite (fun hin => ?_) fun hout => ?_
    · -- What is left over comes later than a range that is part of the loop.
      refine loopRegionAt_opens hw hs hlatches hl hb.fresh fun hfirst hp k u hu hu' => ⟨fun hk => ?_, fun hdue => ?_⟩
      · exact (hp.due hb.fresh hu hu' hk).2
      · by_contra hfree
        refine hdue _ l hu' hl hfirst n t ht hhead (tryAt?_noLater hsome hu hfree hu') fun a ha => ?_
        simpa using List.all_eq_true.mp hin a ha
    · refine tryRegionAt_opens hw hs ht hhead hb nofun fun hp a l' ha hl' hfirst k u hu hu' hlater hin => ?_
      obtain rfl : l.header = a := Option.some.inj (hhead.symm.trans ha)
      obtain rfl : l = l' := Option.some.inj (hl.symm.trans hl')
      by_cases hk : k ∈ p.guarded
      · exact (hp.due hb.fresh hu hu' hk).2 _ l hu' hl hfirst k u hu hu' (.refl k u) hin
      · obtain rfl := hlater.antisymm (tryAt?_noLater hsome hu hk hu')
        obtain rfl : t = u := Option.some.inj (ht.symm.trans hu)
        exact hout (List.all_eq_true.mpr fun a ha => by simpa using hin ha)
  · rw [hnone]
    exact loopRegionAt_opens hw hs hlatches hl hb.fresh fun _ hp k t ht hhead =>
      ⟨fun hk => (hp.due hb.fresh ht hhead hk).2, fun _ => hall k t ht hhead⟩

theorem regionAt_opens (hlatches : ∀ l ∈ d.loops, l.latches ⊆ l.body) (b : Nat) (p : Progress) :
    Ends (regionAt g d walk s b) p fun r q => Quietly p q (WaitsAt g d s.latch? b p →
      Opening g d p q (plainOf r.1) ∧ (b ∈ q.placed ∨ r.2 = none ∧ jump? b [] s.frames ≠ none)) := by
  unfold regionAt
  cases hjump : jump? b [] s.frames with
  | some jump =>
      refine .modify (.pure (.same (by simp) fun _ => ⟨?_, .inr ⟨rfl, by simp⟩⟩))
      rw [plainOf_jump hjump]
      exact .same (by simp) (by simp)
  | none =>
      refine .get (.ite (fun hlatch => .modify (.pure (.same rfl fun hp => ?_))) fun hlatch => .ite (fun _ => ?_) fun _ =>
        .ite (fun _ => ?_) fun hfresh => ?_)
      · obtain ⟨hlatch, hfree⟩ : s.latch? = some b ∧ p.placed.contains b = false := by simpa using hlatch
        have hb : b ∉ p.placed := fun hb => Bool.false_ne_true (hfree.symm.trans hb)
        obtain ⟨header, exit, body, hframe⟩ := mem_frames_of_latch? hlatch
        refine ⟨.place hb (by simp [plainOf, nodesOf, nodes, plain?]) fun k t ht hhead => ?_,
          .inl (Progress.mem_place.mpr (.inr rfl))⟩
        refine iff_of_false (fun hk => (hp.due hb ht hhead hk).1 hlatch) fun h => h.2 ⟨?_, hs _ _ _ _ hframe⟩
        simp [plainOf, nodesOf, nodes, plain?]
      · exact .bind ((leave_opens hw _ b p).mono fun items q h => .pure (h.mono fun h hp => (h hp).imp_right .inl))
      · exact .bind ((jumpTo_remarks b _ p).mono fun r q h => .pure (.absurd h))
      · have hb : Enterable s false b p := by
          refine ⟨hfresh, fun hs => hlatch ?_, .inr hjump⟩
          simp [hs, Bool.not_eq_true _ ▸ hfresh]
        cases hloop : d.loopAt? b with
        | some l =>
            obtain rfl : l.header = b := by simpa using List.find?_some hloop
            exact (loopAt_opens hw hs hlatches hloop hb).mono fun r q h =>
              h.mono fun h hp => (h hp).imp_right .inl
        | none =>
            exact (tryOrPlainAt_opens hw hs hb fun l hl => by rw [hloop] at hl; cases hl).mono fun r q h =>
              h.mono fun h hp => (h hp).imp_right .inl

end

section

variable (hlatches : ∀ l ∈ d.loops, l.latches ⊆ l.body)
include hlatches

omit hlatches in
theorem goOn_opens (hw : Opens g d walk) {asBody : Bool} (hs : Startable g d s asBody b p)
    {r : List Region × Option Nat} {q : Progress}
    (h : Quietly p q (WaitsAt g d s.latch? b p → Opening g d p q (plainOf r.1) ∧
      (b ∈ q.placed ∨ r.2 = none ∧ asBody = false ∧ jump? b [] s.frames ≠ none))) :
    Ends (goOn walk s r) q fun items q' => Quietly p q' (WaitsAt g d s.latch? b p →
      Opening g d p q' (plainOf items) ∧
        (asBody = true ∨ jump? b [] s.frames = none ∧ s.follow ≠ some b → b ∈ q'.placed)) := by
  obtain ⟨items, next⟩ := r
  cases next with
  | none =>
      refine .pure (h.mono fun h hp => (h hp).imp_right fun hb hentered => hb.resolve_right ?_)
      rintro ⟨-, hbody, hjump⟩
      rcases hentered with hentered | ⟨hentered, -⟩
      · exact Bool.false_ne_true (hbody.symm.trans hentered)
      · exact hjump hentered
  | some n =>
      refine .bind ((hw s false n q ⟨hs.closes, nofun⟩).mono fun more q' h' => .pure (h.trans h' fun h h' hp => ?_))
      obtain ⟨hitems, hb⟩ := h hp
      have hb := hb.resolve_right nofun
      have hmore := (h' ((hitems.waits hp hb).at _ n)).1
      rw [plainOf_append]
      exact ⟨hitems.trans hmore, fun _ => hmore.placed b hb⟩

theorem advance_opens (hw : Opens g d walk) : Opens g d (advance g d walk) := by
  intro s asBody b p hs
  refine .ite (fun hend => .pure (.same rfl fun _ => ⟨.same rfl rfl, ?_⟩)) fun _ => ?_
  · obtain ⟨rfl, hfollow⟩ : asBody = false ∧ s.follow = some b := by simpa using hend
    rintro (h | ⟨-, h⟩)
    · cases h
    · exact absurd hfollow h
  · cases asBody with
    | true =>
        obtain ⟨hb, hlatch, hloop⟩ := hs.body rfl
        exact .bind ((tryOrPlainAt_opens hw hs.closes ⟨hb, hlatch, .inl rfl⟩ hloop).mono fun r q h =>
          goOn_opens hw hs (h.mono fun h hp => (h hp).imp_right .inl))
    | false =>
        exact .bind ((regionAt_opens hw hs.closes hlatches b p).mono fun r q h =>
          goOn_opens hw hs (h.mono fun h hp => (h hp).imp_right (Or.imp_right fun hb => ⟨hb.1, rfl, hb.2⟩)))

theorem whole_opens (hg : g.Ranged d) (hb : b < g.size) (p : Progress) :
    Ends (whole g d b) p fun items q => Quietly p q (Waits g p → Opening g d p q (plainOf items)) := by
  -- A walk never comes to the end of its depth. So it may as well leave a remark there.
  have hbeyond : Opens g d fun _ _ b => do return [← jumpTo g b ""] := fun s asBody b p _ =>
    .bind ((jumpTo_remarks b "" p).mono fun r q h => .pure (.absurd h))
  have hiterate (depth : Nat) : Opens g d ((advance g d)^[depth] fun _ _ b => do return [← jumpTo g b ""]) := by
    induction depth with
    | zero => exact hbeyond
    | succ depth ih =>
        rw [Function.iterate_succ_apply']
        exact advance_opens hlatches ih
  unfold Ends
  rw [(whole_settles hg hb p fun _ _ b => do return [← jumpTo g b ""]).1]
  exact (hiterate (depthBound g) .outermost false b p ⟨nofun, nofun⟩).mono fun items q h =>
    h.mono fun h hp => (h (hp.at _ b)).1

theorem rest_opens (hg : g.Ranged d) (bs : List Nat) (hbs : ∀ b ∈ bs, b < g.size) (p : Progress) :
    Ends (rest g d bs) p fun items q => Quietly p q (Waits g p → Opening g d p q (plainOf items)) := by
  induction bs generalizing p with
  | nil => exact .pure (.same rfl fun _ => .same rfl rfl)
  | cons b bs ih =>
      rw [List.forall_mem_cons] at hbs
      refine .get (.ite (fun _ => ih hbs.2 p) fun _ => .modify (.bind ?_))
      refine (whole_opens hlatches hg hbs.1 (p.label b)).mono fun items q h =>
        .bind ((ih hbs.2 q).mono fun more q' h' => .pure ?_)
      have hboth : Quietly (p.label b) q' (Waits g p → Opening g d p q' (plainOf (items ++ more))) := by
        refine h.trans h' fun h h' hp => ?_
        have hitems := h hp
        have hlabel : Opening g d p (p.label b) [] := .same rfl rfl
        rw [plainOf_append]
        exact (hlabel.trans hitems).trans (h' (hitems.waits_of hp))
      exact hboth

theorem everything_opens (hg : g.Ranged d) (p : Progress) :
    Ends (everything g d) p fun items q => Quietly p q (Waits g p → Opening g d p q (plainOf items)) := by
  refine .bind ((whole_opens hlatches hg hg.entry_lt p).mono fun items q h => ?_)
  refine .bind ((rest_opens hlatches hg _ (fun b hb => List.mem_range.mp hb) q).mono fun more q' h' =>
    .pure (h.trans h' fun h h' hp => ?_))
  rw [plainOf_append]
  exact (h hp).trans (h' ((h hp).waits_of hp))

end

end Region

end JavaLift
