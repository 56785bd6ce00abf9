import JavaLift.Proofs.Flow.Onward
import JavaLift.Proofs.Region.Totality

/-!
Where control goes on from the blocks that a walk has placed. As long as no jump had to be made explicit, it comes to
another one of them, to a block that a construct around the walk catches jumps to, or to the block that comes next. So
control that stays in a guarded range stays in the region around it, unless it leaves a loop or a switch around both.
-/

namespace JavaLift

open JavaLift.Frame Region

variable {g : Graph} {d : Dominance} {frames : List Frame} {next next' : Option Nat} {p q r : Progress}
  {bs cs : List Nat} {regions regions' regions'' : List Region} {a b m n : Nat}

/-- The block is one of those placed, or a construct around catches jumps to it, or it comes next. -/
def Taken (frames : List Frame) (next : Option Nat) (bs : List Nat) (n : Nat) : Prop :=
  n ∈ bs ∨ jump? n [] frames ≠ none ∨ next = some n

namespace Taken

theorem mono (h : Taken frames next bs n) (hbs : bs ⊆ cs) : Taken frames next cs n := h.imp_left fun hn => hbs hn

/-- Where the next block is taken up, everything is that came to it. -/
theorem trans (h : Taken frames next bs n) (hbs : bs ⊆ cs) (hnext : ∀ m ∈ next, Taken frames next' cs m) :
    Taken frames next' cs n := by
  rcases h with hn | hjump | hn
  · exact .inl (hbs hn)
  · exact .inr (.inl hjump)
  · exact hnext n hn

/-- A construct is left to the block that comes next, or it begins again at one of its own blocks. -/
theorem out {frame : Frame} (h : Taken (frame :: frames) none bs n)
    (hcatches : frame.catchesJump n = true → n ∈ bs ∨ next = some n) : Taken frames next bs n := by
  rcases h with hn | hjump | hn
  · exact .inl hn
  · rcases catches_of_jump? hjump with hcaught | hjump
    · exact (hcatches hcaught).imp_right .inr
    · exact .inr (.inl hjump)
  · cases hn

end Taken

/-- Among the regions, there is a loop or a switch around block `a` that control has left at `n`, or a loop around it
that begins at `n`. -/
def Leaves (d : Dominance) (regions : List Region) (a n : Nat) : Prop :=
  (∃ kind header cond negated body, .loop kind header cond negated body ∈ regions ∧
    a ∈ carriers (.loop kind header cond negated body) ∧ (n = header ∨ ∃ l ∈ d.loops, l.header = header ∧ n ∉ l.body)) ∨
  ∃ header cases, .switch header cases ∈ regions ∧ a ∈ carriers (.switch header cases) ∧ d.ipdomOf header = some n

theorem Leaves.mono (h : Leaves d regions a n) (hsub : ∀ r ∈ regions, r ≠ .cont none → r ∈ regions') :
    Leaves d regions' a n := by
  rcases h with ⟨kind, header, cond, negated, body, hmem, hrest⟩ | ⟨header, cases, hmem, hrest⟩
  · exact .inl ⟨kind, header, cond, negated, body, hsub _ hmem nofun, hrest⟩
  · exact .inr ⟨header, cases, hsub _ hmem nofun, hrest⟩

/-- Among the regions, there is one for the range. It handles what the range does, and control that stays in the range
stays in its body or leaves a construct around it. -/
def Opened (g : Graph) (d : Dominance) (frames : List Frame) (bs : List Nat) (regions : List Region)
    (t : TryRegion) : Prop :=
  ∃ body catches, .guarded body catches ∈ regions ∧ (∀ x ∈ t.handlers, ∃ c ∈ catches, c.1.block = x.block) ∧
    ∃ a ∈ bs, t.covered.head? = some a ∧ a ∈ carriers body ∧
      ∀ m ∈ carriers body, ∀ n ∈ t.covered, g.Goes m n →
        n ∈ carriers body ∨ jump? n [] frames ≠ none ∨ Leaves d regions a n

theorem Opened.mono {frames' : List Frame} {t : TryRegion} (h : Opened g d frames bs regions t) (hbs : bs ⊆ cs)
    (hsub : ∀ r ∈ regions, r ≠ .cont none → r ∈ regions')
    (hframes : ∀ a ∈ bs, ∀ n, jump? n [] frames ≠ none → jump? n [] frames' ≠ none ∨ Leaves d regions' a n) :
    Opened g d frames' cs regions' t := by
  obtain ⟨body, catches, hmem, hcatches, a, ha, hhead, hin, hstays⟩ := h
  refine ⟨body, catches, hsub _ hmem nofun, hcatches, a, hbs ha, hhead, hin, fun m hm n hn hgoes => ?_⟩
  rcases hstays m hm n hn hgoes with hbody | hjump | hleaves
  · exact .inl hbody
  · exact .inr (hframes a ha n hjump)
  · exact .inr (.inr (hleaves.mono hsub))

/-- Between two states blocks are placed and ranges opened. Control that goes on from one of the blocks is taken up, and
control that stays in one of the ranges stays in the region around it. -/
structure Sealed (g : Graph) (d : Dominance) (frames : List Frame) (next : Option Nat) (p q : Progress) (bs : List Nat)
    (regions : List Region) : Prop where
  quiet : p.diagnostics = []
  taken : ∀ m ∈ bs, ∀ n, g.Goes m n → Taken frames next bs n
  opened : ∀ k t, g.tries[k]? = some t → k ∈ q.guarded → k ∈ p.guarded ∨ Opened g d frames bs regions t

namespace Sealed

theorem same (hquiet : p.diagnostics = []) (hguarded : q.guarded = p.guarded) : Sealed g d frames next p q [] regions :=
  ⟨hquiet, nofun, fun _ _ _ hk => .inl (hguarded ▸ hk)⟩

theorem mono (h : Sealed g d frames next p q bs regions) (hsub : ∀ r ∈ regions, r ≠ .cont none → r ∈ regions') :
    Sealed g d frames next p q bs regions' :=
  { h with
    opened := fun k t ht hk =>
      (h.opened k t ht hk).imp_right fun ho => ho.mono (fun _ ha => ha) hsub fun _ _ _ => .inl }

theorem anywhere (h : Sealed g d frames none p q bs regions) : Sealed g d frames next p q bs regions :=
  { h with taken := fun m hm n hgoes => (h.taken m hm n hgoes).trans (fun _ hb => hb) nofun }

theorem header (h : Sealed g d frames next (p.place b) q bs regions)
    (hb : ∀ n, g.Goes b n → Taken frames next (b :: bs) n) : Sealed g d frames next p q (b :: bs) regions where
  quiet := h.quiet
  taken m hm n hgoes := by
    rcases List.mem_cons.mp hm with rfl | hm
    · exact hb n hgoes
    · exact (h.taken m hm n hgoes).mono (List.subset_cons_self _ _)
  opened k t ht hk := (h.opened k t ht hk).imp_right fun ho =>
    ho.mono (List.subset_cons_self _ _) (fun _ hr _ => hr) fun _ _ _ => .inl

theorem trans (h : Sealed g d frames next p q bs regions) (h' : Sealed g d frames next' q r cs regions')
    (hnext : ∀ n ∈ next, Taken frames next' (bs ++ cs) n) (hsub : regions ⊆ regions'') (hsub' : regions' ⊆ regions'') :
    Sealed g d frames next' p r (bs ++ cs) regions'' where
  quiet := h.quiet
  taken m hm n hgoes := by
    rcases List.mem_append.mp hm with hm | hm
    · exact (h.taken m hm n hgoes).trans (List.subset_append_left _ _) hnext
    · exact (h'.taken m hm n hgoes).mono (List.subset_append_right _ _)
  opened k t ht hk := by
    rcases h'.opened k t ht hk with hk | ho
    · refine (h.opened k t ht hk).imp_right fun ho => ?_
      exact ho.mono (List.subset_append_left _ _) (fun _ hr _ => hsub hr) fun _ _ _ => .inl
    · exact .inr (ho.mono (List.subset_append_right _ _) (fun _ hr _ => hsub' hr) fun _ _ _ => .inl)

theorem out {frame : Frame} (h : Sealed g d (frame :: frames) none p q bs regions)
    (hcatches : ∀ n, frame.catchesJump n = true → n ∈ bs ∨ next = some n)
    (hleaves : ∀ a ∈ bs, ∀ n, frame.catchesJump n = true → Leaves d regions' a n)
    (hsub : ∀ r ∈ regions, r ≠ .cont none → r ∈ regions') : Sealed g d frames next p q bs regions' where
  quiet := h.quiet
  taken m hm n hgoes := (h.taken m hm n hgoes).out (hcatches n)
  opened k t ht hk := by
    refine (h.opened k t ht hk).imp_right fun ho => ho.mono (fun _ ha => ha) hsub fun a ha n hjump => ?_
    exact (catches_of_jump? hjump).symm.imp_right (hleaves a ha n)

theorem guard {k : Nat} {t : TryRegion} {body : Region} {catches : List (CatchHead × Region)}
    (ht : g.tries[k]? = some t) (hhead : t.covered.head? = some b) (hnext : ∀ n ∈ next, n ∉ t.covered)
    (hcatches : ∀ x ∈ t.handlers, ∃ c ∈ catches, c.1.block = x.block) (hb : b ∈ carriers body)
    (h : Sealed g d frames next (p.guard k) q (carriers body) (nodes body))
    (h' : Sealed g d frames next q r (carriersOfCatches catches) (nodesOfCatches catches)) :
    Sealed g d frames next p r (carriers (.guarded body catches)) (nodes (.guarded body catches)) := by
  have hboth : Sealed g d frames next (p.guard k) r (carriers (.guarded body catches))
    (nodes (.guarded body catches)) :=
    h.trans h' (fun n hn => .inr (.inr hn)) (by simp [nodes]) (by simp [nodes])
  refine { hboth with opened := fun k' t' ht' hk' => ?_ }
  rcases hboth.opened k' t' ht' hk' with hk' | ho
  · rcases mem_guard.mp hk' with hk' | rfl
    · exact .inl hk'
    · obtain rfl : t = t' := Option.some.inj (ht.symm.trans ht')
      refine .inr ⟨body, catches, List.mem_cons_self, hcatches, b, List.mem_append_left _ hb, hhead, hb,
        fun m hm n hn hgoes => ?_⟩
      rcases h.taken m hm n hgoes with hbody | hjump | hout
      · exact .inl hbody
      · exact .inr (.inl hjump)
      · exact absurd hn (hnext n hout)
  · exact .inr ho

/-- A loop around a body. It catches the jumps to its header and out of it. -/
theorem loop {kind : LoopKind} {cond exit : Option Nat} {negated : Bool} {l : Loop} {items : List Region}
    (latch : Option Nat)
    (hl : l ∈ d.loops)
    (hcarriers : carriers (.loop kind l.header cond negated (ofList (withoutLastContinue items))) = bs)
    (hheader : l.header ∈ bs) (hexit : ∀ n ∈ exit, n ∉ l.body)
    (h : Sealed g d (.loop l.header exit l.body latch :: frames) none p q bs (nodesOf items)) :
    Sealed g d frames exit p q (carriersOf [.loop kind l.header cond negated (ofList (withoutLastContinue items))])
        (nodesOf [.loop kind l.header cond negated (ofList (withoutLastContinue items))]) ∧
      l.header ∈ carriersOf [.loop kind l.header cond negated (ofList (withoutLastContinue items))] := by
  have hcaught {n : Nat} (hn : (Frame.loop l.header exit l.body latch).catchesJump n = true) :
    n = l.header ∨ exit = some n := by
    simpa [catchesJump] using hn
  simp only [carriersOf, hcarriers, List.append_nil]
  refine ⟨h.out (fun n hn => (hcaught hn).imp_left fun he => by rwa [he]) (fun a ha n hn => .inl ?_) fun r hr hne => ?_,
    hheader⟩
  · refine ⟨kind, l.header, cond, negated, _, List.mem_cons_self, hcarriers ▸ ha, (hcaught hn).imp_right fun he => ?_⟩
    exact ⟨l, hl, rfl, hexit n he⟩
  · simp [nodesOf, nodes, nodesOf_subset_ofList _ (nodesOf_withoutLastContinue hr hne)]

end Sealed

namespace Region

variable {walk : Walk} {s : Scope}

/-- A loop that decides after its body leads from there to its header and to the block after it. -/
def Sound (g : Graph) (frames : List Frame) : Prop :=
  ∀ header exit body latch, .loop header exit body (some latch) ∈ frames → ∀ n, g.Goes latch n →
    n = header ∨ exit = some n

def Seals (g : Graph) (d : Dominance) (walk : Walk) : Prop :=
  ∀ s asBody b p, Sound g s.frames → Ends (walk s asBody b) p fun items q => q.diagnostics = [] →
    Sealed g d s.frames s.follow p q (carriersOf items) (nodesOf items) ∧
      Taken s.frames s.follow (carriersOf items) b ∧ (asBody = true → b ∈ carriersOf items)

def SealedAfter (g : Graph) (d : Dominance) (frames : List Frame) (b : Nat) (p : Progress) (r : Region × Option Nat)
    (q : Progress) : Prop :=
  q.diagnostics = [] → ∃ cs, carriers r.1 = b :: cs ∧ Sealed g d frames r.2 p q cs (nodes r.1) ∧
    ∀ n, g.Goes b n → Taken frames r.2 cs n

def SealedStep (g : Graph) (d : Dominance) (frames : List Frame) (b : Nat) (p : Progress) (r : List Region × Option Nat)
    (q : Progress) : Prop :=
  q.diagnostics = [] → Sealed g d frames r.2 p q (carriersOf r.1) (nodesOf r.1) ∧ b ∈ carriersOf r.1

theorem jumpTo_remarks (target : Nat) (reason : String) (p : Progress) :
    Ends (jumpTo g target reason) p fun _ q => q.diagnostics ≠ [] := by
  refine .modify (.pure ?_)
  simp [Progress.remark, Progress.label]

section

variable (hw : Seals g d walk) (hs : Sound g s.frames)
include hw hs

theorem walk_seals (b : Nat) (follow : Option Nat) (p : Progress) :
    Ends (walk { s with follow := follow } false b) p fun items q => q.diagnostics = [] →
      Sealed g d s.frames follow p q (carriersOf items) (nodes (ofList items)) ∧
        Taken s.frames follow (carriersOf items) b :=
  (hw { s with follow := follow } false b p hs).mono fun items _ h hquiet =>
    ⟨(h hquiet).1.mono fun _ hr _ => nodesOf_subset_ofList items hr, (h hquiet).2.1⟩

omit hs in
theorem leave_seals (fromTry : Bool) (b : Nat) (frames : List Frame) (p : Progress) :
    Ends (leave g d walk fromTry b) p fun items q => q.diagnostics = [] →
      Sealed g d frames none p q (carriersOf items) (nodesOf items) ∧ b ∈ carriersOf items := by
  refine .get (.ite (fun _ => ?_) fun _ =>
    .bind ((jumpTo_remarks b _ p).mono fun r q h => .pure fun hquiet => absurd hquiet h))
  refine (hw .outermost false b p nofun).mono fun items q h hquiet => ?_
  obtain ⟨hsealed, htaken, -⟩ := h hquiet
  -- Nothing is around this walk, so that it carries whatever control comes to.
  have hcarried {n : Nat} (hn : Taken Scope.outermost.frames Scope.outermost.follow (carriersOf items) n) :
    n ∈ carriersOf items := by
    rcases hn with hn | hjump | hn
    · exact hn
    · exact absurd rfl hjump
    · cases hn
  refine ⟨⟨hsealed.quiet, fun m hm n hgoes => .inl (hcarried (hsealed.taken m hm n hgoes)), fun k t ht hk => ?_⟩,
    hcarried htaken⟩
  exact (hsealed.opened k t ht hk).imp_right fun ho => ho.mono (fun _ ha => ha) (fun _ hr _ => hr) fun _ _ _ hjump =>
    absurd rfl hjump

theorem arms_seals {fall target : Nat} {merge : Option Nat} (hgoes : ∀ n, g.Goes b n → n = fall ∨ n = target)
    (p : Progress) :
    Ends (arms walk s b fall target merge) p fun r q => SealedAfter g d s.frames b p (r, merge) q := by
  refine .ite (fun hm => ?_) fun _ => .ite (fun hm => ?_) fun _ => ?_
  · refine .bind ((walk_seals hw hs fall merge p).mono fun items q h => .pure fun hquiet => ?_)
    refine ⟨_, by simp [carriers], (h hquiet).1.mono fun _ hr _ => by simp [nodes, hr], fun n hn => ?_⟩
    rcases hgoes n hn with rfl | rfl
    · exact (h hquiet).2
    · exact .inr (.inr hm)
  · refine .bind ((walk_seals hw hs target merge p).mono fun items q h => .pure fun hquiet => ?_)
    refine ⟨_, by simp [carriers], (h hquiet).1.mono fun _ hr _ => by simp [nodes, hr], fun n hn => ?_⟩
    rcases hgoes n hn with rfl | rfl
    · exact .inr (.inr hm)
    · exact (h hquiet).2
  · refine .bind ((walk_seals hw hs fall merge p).mono fun items q h => ?_)
    refine .bind ((walk_seals hw hs target merge q).mono fun items' q' h' => .pure fun hquiet => ?_)
    obtain ⟨hsealed', htaken'⟩ := h' hquiet
    obtain ⟨hsealed, htaken⟩ := h hsealed'.quiet
    refine ⟨carriersOf items ++ carriersOf items', by simp [carriers],
      hsealed.trans hsealed' (fun n hn => .inr (.inr hn)) (by simp [nodes]) (by simp [nodes]), fun n hn => ?_⟩
    rcases hgoes n hn with rfl | rfl
    · exact htaken.mono (List.subset_append_left _ _)
    · exact htaken'.mono (List.subset_append_right _ _)

theorem away_seals {arm other : Nat} (negated : Bool) (hgoes : ∀ n, g.Goes b n → n = arm ∨ n = other) (p : Progress) :
    Ends (walk { s with follow := none } false arm) p fun items q =>
      SealedAfter g d s.frames b p (.branch b negated (ofList items) none, some other) q := by
  refine (walk_seals hw hs arm none p).mono fun items q h hquiet => ?_
  obtain ⟨hsealed, htaken⟩ := h hquiet
  refine ⟨_, by simp [carriers], hsealed.anywhere.mono fun _ hr _ => by simp [nodes, hr], fun n hn => ?_⟩
  rcases hgoes n hn with rfl | rfl
  · exact htaken.trans (fun _ hb => hb) (by simp)
  · exact .inr (.inr rfl)

theorem branchAt_seals (hif : (g.block b).endsInIf = true) (p : Progress) :
    Ends (branchAt g d walk s b) p fun r q => SealedAfter g d s.frames b p r q := by
  have hnowhere (hnone : ∀ holds, g.branchTo b holds = none) : SealedAfter g d s.frames b p (.block b, none) p := by
    refine fun hquiet => ⟨[], rfl, .same hquiet rfl, fun n hn => ?_⟩
    obtain ⟨holds, hto⟩ := hn.branchTo hif
    rw [hnone] at hto
    cases hto
  unfold branchAt
  cases hsuccs : g.succs b with
  | nil => exact .pure (hnowhere fun _ => by simp [Graph.branchTo, hsuccs])
  | cons fall rest =>
      cases rest with
      | nil =>
          refine .pure fun hquiet => ⟨[], rfl, .same hquiet rfl, fun n hn => .inr (.inr ?_)⟩
          obtain ⟨holds, hto⟩ := hn.branchTo hif
          simpa [Graph.branchTo, hsuccs] using hto
      | cons target rest =>
          cases rest with
          | cons _ _ => exact .pure (hnowhere fun _ => by simp [Graph.branchTo, hsuccs])
          | nil =>
              have hgoes : ∀ n, g.Goes b n → n = fall ∨ n = target := by
                intro n hn
                obtain ⟨holds, hto⟩ := hn.branchTo hif
                cases holds <;> simp [Graph.branchTo, hsuccs] at hto <;> simp [hto]
              cases hmerge : mergeOf d s b with
              | some m => exact .bind ((arms_seals hw hs hgoes p).mono fun r q h => .pure h)
              | none =>
                  refine .get (.ite (fun _ => ?_) fun _ => .ite (fun _ => ?_) fun _ => ?_)
                  · exact .bind ((away_seals hw hs false (fun n hn => (hgoes n hn).symm) p).mono fun items q h =>
                      .pure h)
                  · exact .bind ((away_seals hw hs true hgoes p).mono fun items q h => .pure h)
                  · exact .bind ((arms_seals hw hs hgoes p).mono fun r q h => .pure h)

theorem caseBody_seals {merge : Option Nat} (hmerge : ∀ n ∈ merge, jump? n [] s.frames ≠ none) (next : Option Nat)
    (target : Nat)
    (p : Progress) : Ends (caseBody g walk s merge next target) p fun r q => q.diagnostics = [] →
      Sealed g d s.frames next p q (carriers r) (nodes r) ∧ Taken s.frames next (carriers r) target := by
  refine .ite (fun hm => .pure fun hquiet => ⟨.same hquiet rfl, .inr (.inl (hmerge target hm))⟩) fun _ =>
    .get (.ite (fun _ => ?_) fun _ => ?_)
  · exact (jumpTo_remarks target _ p).mono fun r q h hquiet => absurd hquiet h
  · refine .bind ((walk_seals hw hs target next p).mono fun items q h => .pure ?_)
    rwa [carriers_ofList]

theorem caseBodies_seals {merge : Option Nat} (hmerge : ∀ n ∈ merge, jump? n [] s.frames ≠ none) (entries : List Nat)
    (p : Progress) :
    Ends (caseBodies g walk s merge entries) p fun bodies q => q.diagnostics = [] →
      Sealed g d s.frames none p q (carriersOf bodies) (nodesOf bodies) ∧
        ∀ t ∈ entries, Taken s.frames none (carriersOf bodies) t := by
  induction entries generalizing p with
  | nil => exact .pure fun hquiet => ⟨.same hquiet rfl, nofun⟩
  | cons target rest ih =>
      refine .bind ((caseBody_seals hw hs hmerge rest.head? target p).mono fun r q h => ?_)
      refine .bind ((ih q).mono fun bodies q' h' => .pure fun hquiet => ?_)
      obtain ⟨hsealed', htaken'⟩ := h' hquiet
      obtain ⟨hsealed, htaken⟩ := h hsealed'.quiet
      -- What goes on from a case to the next one is taken up there.
      have hnext : ∀ n ∈ rest.head?, Taken s.frames none (carriers r ++ carriersOf bodies) n := fun n hn =>
        (htaken' n (List.mem_of_mem_head? hn)).mono (List.subset_append_right _ _)
      refine ⟨hsealed.trans hsealed' hnext (by simp [nodesOf]) (by simp [nodesOf]),
        List.forall_mem_cons.mpr ⟨?_, fun t ht => ?_⟩⟩
      · exact htaken.trans (List.subset_append_left _ _) hnext
      · exact (htaken' t ht).mono (List.subset_append_right _ _)

theorem switchAt_seals {keys : List Int} {targets : List Nat} {op : Option Nat}
    (hop : (g.block b).exitOp? = some (.switchOn keys targets op)) (htable : ∀ n, ∀ e ∈ g.entryOf b n, e.1 ∈ g.succs b)
    (p : Progress) : Ends (switchAt g d walk s b keys targets) p fun r q => SealedAfter g d s.frames b p r q := by
  have hselect {n : Nat} (hn : g.Goes b n) :
    (∃ e ∈ keyBlocks g keys targets, e.1 = n ∧ n ∈ g.succs b) ∨ (g.succs b).head? = some n := by
    obtain ⟨k, hto⟩ := hn.selectTo (by simp [Block.endsInSwitch_eq, hop, Op.isSwitch])
    cases hentry : g.entryOf b k with
    | none => exact .inr (by simpa [Graph.selectTo, hentry] using hto)
    | some e =>
        obtain rfl : e.1 = n := by simpa [Graph.selectTo, hentry] using hto
        exact .inl ⟨e, (mem_keyBlocks hop).mpr ⟨k, hentry⟩, rfl, htable k e hentry⟩
  unfold switchAt
  cases hsuccs : g.succs b with
  | nil =>
      refine .pure fun hquiet => ⟨[], rfl, .same hquiet rfl, fun n hn => ?_⟩
      simpa [hsuccs] using hselect hn
  | cons default rest =>
      have hframes : Sound g (.switch (mergeOf d s b) :: s.frames) := by
        intro header exit body latch hf
        exact hs header exit body latch ((List.mem_cons.mp hf).resolve_left (by simp))
      have hmerge : ∀ n ∈ mergeOf d s b, jump? n [] (.switch (mergeOf d s b) :: s.frames) ≠ none := by
        rintro n hn
        simp [jump?, show mergeOf d s b = some n from hn]
      have hbodies := (caseBodies_seals (s := { s with frames := .switch (mergeOf d s b) :: s.frames })
        hw hframes hmerge
        (caseTargets g (keyBlocks g keys targets) default (mergeOf d s b)) p).and (caseBodies_length g walk _ _ _ p)
      refine .bind (hbodies.mono fun bodies q h => .pure fun hquiet => ?_)
      have hcarriers : carriersOfCases (((caseTargets g (keyBlocks g keys targets) default (mergeOf d s b)).map
          (headOf (keyBlocks g keys targets) default)).zip bodies) = carriersOf bodies :=
        carriersOfCases_zip _ _ (by rw [List.length_map, h.2])
      have hnodes : nodesOfCases (((caseTargets g (keyBlocks g keys targets) default (mergeOf d s b)).map
          (headOf (keyBlocks g keys targets) default)).zip bodies) = nodesOf bodies :=
        nodesOfCases_zip _ _ (by rw [List.length_map, h.2])
      have hcaught {n : Nat} (hn : (Frame.switch (mergeOf d s b)).catchesJump n = true) : mergeOf d s b = some n := by
        simpa [catchesJump] using hn
      obtain ⟨hsealed, htaken⟩ := h.1 hquiet
      refine ⟨carriersOf bodies, congrArg (b :: ·) hcarriers, ?_, fun n hn => ?_⟩
      · refine hsealed.out (fun n hn => .inr (hcaught hn)) (fun a ha n hn => .inr ?_) fun r hr _ => ?_
        · refine ⟨b, _, List.mem_cons_self, List.mem_cons_of_mem _ (hcarriers ▸ ha), ?_⟩
          exact (Option.filter_eq_some_iff.mp (hcaught hn)).1
        · exact List.mem_cons_of_mem _ (hnodes ▸ hr)
      · by_cases hpast : mergeOf d s b = some default ∧ n = default
        · exact .inr (.inr (hpast.2 ▸ hpast.1))
        · have hentry : n ∈ caseTargets g (keyBlocks g keys targets) default (mergeOf d s b) := by
            refine (mem_caseTargets fun e => keyBlocks_lt).mpr ⟨?_, hpast⟩
            rcases hselect hn with ⟨e, he, hen, -⟩ | hhead
            · exact .inl ⟨e, he, hen⟩
            · exact .inr (by simpa [hsuccs, eq_comm] using hhead)
          exact (htaken n hentry).out fun hn => .inr (hcaught hn)

theorem handlerBody_seals (b : Nat) (p : Progress) :
    Ends (handlerBody g walk s b) p fun r q =>
      q.diagnostics = [] → Sealed g d s.frames s.follow p q (carriers r) (nodes r) := by
  refine .get (.ite (fun _ => (jumpTo_remarks b _ p).mono fun r q h hquiet => absurd hquiet h) fun _ => ?_)
  refine .bind ((walk_seals hw hs b s.follow p).mono fun items q h => .pure fun hquiet => ?_)
  rw [carriers_ofList]
  exact (h hquiet).1

theorem catchesOf_seals (seen : List Nat) (handlers : List HandlerBlock) (p : Progress) :
    Ends (catchesOf g walk s seen handlers) p fun catches q => q.diagnostics = [] →
      Sealed g d s.frames s.follow p q (carriersOfCatches catches) (nodesOfCatches catches) := by
  induction handlers generalizing seen p with
  | nil => exact .pure fun hquiet => .same hquiet rfl
  | cons handler rest ih =>
      refine .ite (fun _ => ih seen p) fun _ => ?_
      refine .bind ((handlerBody_seals hw hs handler.block p).mono fun r q h => ?_)
      refine .bind ((ih (handler.block :: seen) q).mono fun catches q' h' => .pure fun hquiet => ?_)
      have hsealed := h' hquiet
      exact (h hsealed.quiet).trans hsealed (fun n hn => .inr (.inr hn)) (by simp [nodesOfCatches])
        (by simp [nodesOfCatches])

theorem tryRegionAt_seals {asBody : Bool} {k : Nat} {t : TryRegion} (ht : g.tries[k]? = some t)
    (hhead : t.covered.head? = some b)
    (hfree : asBody = true ∨ jump? b [] s.frames = none) (p : Progress) :
    Ends (tryRegionAt g walk s asBody k t) p fun r q => SealedStep g d s.frames b p r q := by
  have hmerge : ∀ m ∈ (exitOfTry? g t).filter s.accepts, m ∉ t.covered := by
    intro m hm
    have hexit := List.mem_mergeSort.mp (List.mem_of_mem_head? (Option.filter_eq_some_iff.mp hm).1)
    simp only [List.mem_filter, Bool.and_eq_true, Bool.not_eq_true', List.contains_eq_mem,
      decide_eq_false_iff_not] at hexit
    exact hexit.2.1
  unfold tryRegionAt
  refine .modify ?_
  cases hlist : t.covered with
  | nil => simp [hlist] at hhead
  | cons start rest =>
      obtain rfl : start = b := by simpa [hlist] using hhead
      refine .bind ((hw ⟨(exitOfTry? g t).filter s.accepts, s.frames, some _⟩ asBody start (p.guard k)
        hs).mono fun body q h => ?_)
      have hcatches := (catchesOf_seals (s := { s with follow := (exitOfTry? g t).filter s.accepts })
        hw hs [] t.handlers q).and
        (catchesOf_all g walk _ [] t.handlers q)
      refine .bind (hcatches.mono fun catches q' h' => .pure fun hquiet => ?_)
      have hsealed' := h'.1 hquiet
      obtain ⟨hsealed, htaken, hbody⟩ := h hsealed'.quiet
      -- Control does not come to the first block of the range by a jump out of it or past it.
      have hstart : start ∈ carriersOf body := by
        rcases hfree with hfree | hfree
        · exact hbody hfree
        · rcases htaken with hcarried | hjump | hnext
          · exact hcarried
          · exact absurd hfree hjump
          · exact absurd (hlist ▸ List.mem_cons_self) (hmerge start hnext)
      have hguarded : Sealed g d s.frames ((exitOfTry? g t).filter s.accepts) p q'
        (carriers (.guarded (ofList body) catches))
          (nodes (.guarded (ofList body) catches)) := by
        refine .guard ht hhead hmerge (fun x hx => h'.2 x hx List.not_mem_nil) (by rwa [carriers_ofList]) ?_ hsealed'
        rw [carriers_ofList]
        exact hsealed.mono fun _ hr _ => nodesOf_subset_ofList body hr
      refine ⟨by simpa [carriersOf, nodesOf] using hguarded, ?_⟩
      simpa [carriersOf, carriers] using .inl hstart

theorem loopRegionAt_seals {l : Loop} (hl : l ∈ d.loops) (p : Progress) :
    Ends (loopRegionAt g d walk s l) p fun r q => SealedStep g d s.frames l.header p r q := by
  have hframes {exit : Option Nat} : Sound g (.loop l.header exit l.body none :: s.frames) := by
    intro header exit body latch hf
    exact hs header exit body latch ((List.mem_cons.mp hf).resolve_left nofun)
  refine .get ?_
  rcases loopShape_cases (g := g) (d := d) p l with ⟨negated, out, inner, hshape, htests⟩ |
    ⟨latch, negated, out, hshape, htests, -⟩ | hshape <;> rw [hshape]
  · refine .bind (.modify ((hw ⟨none, .loop l.header (some out) l.body none :: s.frames, s.allowed⟩
      false inner _ hframes).mono
      fun items q h => .pure fun hquiet => ?_))
    obtain ⟨hsealed, htaken, -⟩ := h hquiet
    refine Sealed.loop none hl (by simp [carriers]) List.mem_cons_self (by simpa using htests.out_out)
      (hsealed.header fun n hn => ?_)
    obtain ⟨holds, hto⟩ := hn.branchTo htests.ends
    have hn : n = inner ∨ n = out := by
      have hmore := htests.more
      have hleaves := htests.leaves
      cases holds <;> cases negated <;> simp_all
    rcases hn with rfl | rfl
    · exact htaken.mono (List.subset_cons_self _ _)
    · exact .inr (.inl (jump?_ne_none List.mem_cons_self (.inr rfl)))
  · have hlatch {n : Nat} (hn : g.Goes latch n) : n = l.header ∨ some out = some n := by
      obtain ⟨holds, hto⟩ := hn.branchTo htests.ends
      have hmore := htests.more
      have hleaves := htests.leaves
      cases holds <;> cases negated <;> simp_all
    refine .bind (.ite (fun hself => .modify (.pure (.pure fun hquiet => ?_))) fun _ => ?_)
    · obtain rfl : latch = l.header := Option.some.inj hself
      refine Sealed.loop (some l.header) hl (by simp [carriers, withoutLastContinue, ofList])
        (List.mem_singleton.mpr rfl)
        (by simpa using htests.out_out) ?_
      refine .header (.same hquiet rfl) fun n hn => ?_
      exact .inr (.inl (jump?_ne_none List.mem_cons_self (hlatch hn)))
    · have hframes : Sound g (.loop l.header (some out) l.body (some latch) :: s.frames) := by
        intro header exit body latch' hf n hn
        rcases List.mem_cons.mp hf with hf | hf
        · cases hf
          exact hlatch hn
        · exact hs header exit body latch' hf n hn
      refine (hw ⟨none, .loop l.header (some out) l.body (some latch) :: s.frames, s.allowed⟩
        true l.header p hframes).mono
        fun items q h => .pure fun hquiet => ?_
      exact Sealed.loop (some latch) hl (by simp [carriers]) ((h hquiet).2.2 rfl) (by simpa using htests.out_out)
        (h hquiet).1
  · refine .bind ((hw ⟨none, .loop l.header (endlessExit? g d p l) l.body none :: s.frames, s.allowed⟩
      true l.header p hframes).mono
      fun items q h => .pure fun hquiet => ?_)
    exact Sealed.loop none hl (by simp [carriers]) ((h hquiet).2.2 rfl) (fun n hn => (endlessExit?_eq hn).1)
      (h hquiet).1

theorem plainAt_seals (htable : ∀ n, ∀ e ∈ g.entryOf b n, e.1 ∈ g.succs b) (p : Progress) :
    Ends (plainAt g d walk s b) p fun r q => SealedStep g d s.frames b p r q := by
  have hafter {r : Region × Option Nat} {q : Progress} (h : SealedAfter g d s.frames b (p.place b) r q) :
      SealedStep g d s.frames b p ([r.1], r.2) q := by
    intro hquiet
    obtain ⟨cs, hcs, hsealed, hgoes⟩ := h hquiet
    refine ⟨?_, by simp [carriersOf, hcs]⟩
    simpa [carriersOf, nodesOf, hcs] using hsealed.header fun n hn => (hgoes n hn).mono (List.subset_cons_self _ _)
  have hblock {next : Option Nat} (hnext : ∀ n, g.Goes b n → next = some n) :
      SealedStep g d s.frames b p ([.block b], next) (p.place b) :=
    hafter (r := (.block b, next)) fun hquiet => ⟨[], rfl, .same hquiet rfl, fun n hn => .inr (.inr (hnext n hn))⟩
  refine .modify ?_
  cases hop : (g.block b).exitOp? with
  | none =>
      exact .pure (hblock fun n hn => hn.next
        (by simp [Graph.after, Block.endsInIf_eq, Block.endsInSwitch_eq, Block.isExit_eq, hop]))
  | some op =>
      cases op with
      | jumpIf c target =>
          exact .bind ((branchAt_seals hw hs (by simp [Block.endsInIf_eq, hop, Op.isIf]) _).mono fun r q h =>
            .pure (hafter h))
      | switchOn keys targets default =>
          exact .bind ((switchAt_seals hw hs hop htable _).mono fun r q h => .pure (hafter h))
      | ret => exact .pure (hblock fun n hn => absurd hn (Graph.Goes.not_of_exit (by simp [Block.isExit_eq, hop])))
      | throw => exact .pure (hblock fun n hn => absurd hn (Graph.Goes.not_of_exit (by simp [Block.isExit_eq, hop])))
      | _ => exact .pure (hblock fun n hn => hn.next (Graph.after_of_exitOp? hop ⟨rfl, rfl⟩ (by simp)))

theorem tryOrPlainAt_seals (htable : ∀ n, ∀ e ∈ g.entryOf b n, e.1 ∈ g.succs b) {asBody : Bool}
    (hfree : asBody = true ∨ jump? b [] s.frames = none) (p : Progress) :
    Ends (tryOrPlainAt g d walk s asBody b) p fun r q => SealedStep g d s.frames b p r q := by
  refine .get ?_
  rcases tryAt?_cases g p b with ⟨n, t, hsome, ht, -, hhead⟩ | ⟨hnone, -⟩
  · rw [hsome]
    exact tryRegionAt_seals hw hs ht hhead hfree p
  · rw [hnone]
    exact plainAt_seals hw hs htable p

theorem loopAt_seals {l : Loop} (hl : l ∈ d.loops) (hfree : jump? l.header [] s.frames = none) (p : Progress) :
    Ends (loopAt g d walk s l) p fun r q => SealedStep g d s.frames l.header p r q := by
  refine .get ?_
  rcases tryAt?_cases g p l.header with ⟨n, t, hsome, ht, -, hhead⟩ | ⟨hnone, -⟩
  · rw [hsome]
    exact .ite (fun _ => loopRegionAt_seals hw hs hl p) fun _ => tryRegionAt_seals hw hs ht hhead (.inr hfree) p
  · rw [hnone]
    exact loopRegionAt_seals hw hs hl p

theorem regionAt_seals (htable : ∀ n, ∀ e ∈ g.entryOf b n, e.1 ∈ g.succs b) (p : Progress) :
    Ends (regionAt g d walk s b) p fun r q => q.diagnostics = [] →
      Sealed g d s.frames r.2 p q (carriersOf r.1) (nodesOf r.1) ∧
        (b ∈ carriersOf r.1 ∨ jump? b [] s.frames ≠ none) := by
  unfold regionAt
  cases hjump : jump? b [] s.frames with
  | some jump =>
      refine .modify (.pure fun hquiet => ⟨?_, .inr (by simp)⟩)
      simpa [carriersOf, jump?_carriers hjump] using Sealed.same (by simpa using hquiet) (p.labelLoop_guarded jump)
  | none =>
      refine .get (.ite (fun hlatch => .modify (.pure fun hquiet => ?_)) fun _ => .ite (fun hout => ?_) fun _ =>
        .ite (fun _ => ?_) fun _ => ?_)
      · obtain ⟨hlatch, -⟩ : s.latch? = some b ∧ _ := by simpa using hlatch
        obtain ⟨header, exit, body, hframe⟩ := mem_frames_of_latch? hlatch
        refine ⟨.header (.same hquiet rfl) fun n hn => .inr (.inl ?_), .inl List.mem_cons_self⟩
        exact jump?_ne_none hframe (hs header exit body b hframe n hn)
      · refine .bind ((leave_seals hw _ b s.frames p).mono fun items q h => .pure fun hquiet => ?_)
        exact (h hquiet).imp_right .inl
      · exact .bind ((jumpTo_remarks b _ p).mono fun r q h => .pure fun hquiet => absurd hquiet h)
      · cases hloop : d.loopAt? b with
        | some l =>
            obtain rfl : l.header = b := by simpa using List.find?_some hloop
            exact (loopAt_seals hw hs (List.mem_of_find?_eq_some hloop) hjump p).mono fun r q h hquiet =>
              (h hquiet).imp_right .inl
        | none =>
            exact (tryOrPlainAt_seals hw hs htable (.inr hjump) p).mono fun r q h hquiet => (h hquiet).imp_right .inl

end

variable (htable : ∀ b n, ∀ e ∈ g.entryOf b n, e.1 ∈ g.succs b)
include htable

omit htable in
theorem goOn_seals (hw : Seals g d walk) (hs : Sound g s.frames)
    {asBody : Bool} {r : List Region × Option Nat} {q : Progress}
    (h : q.diagnostics = [] → Sealed g d s.frames r.2 p q (carriersOf r.1) (nodesOf r.1) ∧
      (b ∈ carriersOf r.1 ∨ asBody = false ∧ jump? b [] s.frames ≠ none)) :
    Ends (goOn walk s r) q fun items q' => q'.diagnostics = [] →
      Sealed g d s.frames s.follow p q' (carriersOf items) (nodesOf items) ∧
        Taken s.frames s.follow (carriersOf items) b ∧ (asBody = true → b ∈ carriersOf items) := by
  obtain ⟨items, next⟩ := r
  have hbody (hb : b ∈ carriersOf items ∨ asBody = false ∧ jump? b [] s.frames ≠ none) (htrue : asBody = true) :
      b ∈ carriersOf items := hb.resolve_right fun hb => by simp [htrue] at hb
  cases next with
  | none =>
      refine .pure fun hquiet => ?_
      obtain ⟨hsealed, hb⟩ := h hquiet
      exact ⟨hsealed.anywhere, hb.imp_right fun hb => .inl hb.2, hbody hb⟩
  | some n =>
      refine .bind ((hw s false n q hs).mono fun more q' h' => .pure fun hquiet => ?_)
      obtain ⟨hsealed', htaken, -⟩ := h' hquiet
      obtain ⟨hsealed, hb⟩ := h hsealed'.quiet
      rw [carriersOf_append, nodesOf_append]
      refine ⟨hsealed.trans hsealed' ?_ (List.subset_append_left _ _) (List.subset_append_right _ _), ?_,
        fun htrue => ?_⟩
      · simpa using htaken.mono (List.subset_append_right _ _)
      · exact hb.imp (List.mem_append_left _) fun hb => .inl hb.2
      · exact List.mem_append_left _ (hbody hb htrue)

theorem advance_seals (hw : Seals g d walk) : Seals g d (advance g d walk) := by
  intro s asBody b p hs
  refine .ite (fun hend => .pure fun hquiet => ?_) fun _ => ?_
  · obtain ⟨rfl, hfollow⟩ : asBody = false ∧ s.follow = some b := by simpa using hend
    exact ⟨.same hquiet rfl, .inr (.inr hfollow), by simp⟩
  · cases asBody with
    | true =>
        refine .bind ((tryOrPlainAt_seals hw hs (htable b) (.inl rfl) p).mono fun r q h =>
          goOn_seals hw hs fun hquiet => ?_)
        exact (h hquiet).imp_right .inl
    | false =>
        refine .bind ((regionAt_seals hw hs (htable b) p).mono fun r q h => goOn_seals hw hs fun hquiet => ?_)
        exact (h hquiet).imp_right (Or.imp_right fun hb => ⟨rfl, hb⟩)

theorem whole_seals (hg : g.Ranged d) (hb : b < g.size) (p : Progress) :
    Ends (whole g d b) p fun items q =>
      q.diagnostics = [] → Sealed g d [] none p q (carriersOf items) (nodesOf items) := by
  -- A walk never comes to the end of its depth. So it may as well leave a remark there, and nothing is claimed of it then.
  have hbeyond : Seals g d fun _ _ b => do return [← jumpTo g b ""] := fun s asBody b p hs =>
    .bind ((jumpTo_remarks b "" p).mono fun r q h => .pure fun hquiet => absurd hquiet h)
  have hiterate (depth : Nat) : Seals g d ((advance g d)^[depth] fun _ _ b => do return [← jumpTo g b ""]) := by
    induction depth with
    | zero => exact hbeyond
    | succ depth ih =>
        rw [Function.iterate_succ_apply']
        exact advance_seals htable ih
  unfold Ends
  rw [(whole_settles hg hb p fun _ _ b => do return [← jumpTo g b ""]).1]
  exact (hiterate (depthBound g) .outermost false b p nofun).mono fun items q h hquiet => (h hquiet).1

theorem rest_seals (hg : g.Ranged d) (bs : List Nat) (hbs : ∀ b ∈ bs, b < g.size) (p : Progress) :
    Ends (rest g d bs) p fun items q =>
      q.diagnostics = [] → Sealed g d [] none p q (carriersOf items) (nodesOf items) := by
  induction bs generalizing p with
  | nil => exact .pure fun hquiet => .same hquiet rfl
  | cons b bs ih =>
      rw [List.forall_mem_cons] at hbs
      refine .get (.ite (fun _ => ih hbs.2 p) fun _ => .modify (.bind ?_))
      refine (whole_seals htable hg hbs.1 (p.label b)).mono fun items q h =>
        .bind ((ih hbs.2 q).mono fun more q' h' => .pure fun hquiet => ?_)
      have hmore := h' hquiet
      have hitems := h hmore.quiet
      have hlabel : Sealed g d [] none p (p.label b) [] [] := .same hitems.quiet rfl
      rw [carriersOf_append, nodesOf_append]
      exact (hlabel.trans hitems nofun (List.nil_subset _) (List.Subset.refl _)).trans hmore nofun
        (List.subset_append_left _ _)
        (List.subset_append_right _ _)

theorem everything_seals (hg : g.Ranged d) (p : Progress) :
    Ends (everything g d) p fun items q =>
      q.diagnostics = [] → Sealed g d [] none p q (carriersOf items) (nodesOf items) := by
  refine .bind ((whole_seals htable hg hg.entry_lt p).mono fun items q h => ?_)
  refine .bind ((rest_seals htable hg _ (fun b hb => List.mem_range.mp hb) q).mono fun more q' h' =>
    .pure fun hquiet => ?_)
  have hmore := h' hquiet
  rw [carriersOf_append, nodesOf_append]
  exact (h hmore.quiet).trans hmore nofun (List.subset_append_left _ _) (List.subset_append_right _ _)

end Region

end JavaLift
