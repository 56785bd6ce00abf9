import JavaLift.Proofs.Region.Following

namespace JavaLift

open Around JavaLift.Frame

variable {g : Graph} {d : Dominance} {p q : Progress} {depth : Nat}

structure Fresh (g : Graph) (d : Dominance) (depth : Nat) (s : Scope) (b : Nat) (p : Progress) : Prop where
  lt : b < g.size
  nested : Nested g d s.frames
  allowed : s.allowed = none
  inside : Inside s.frames b
  fresh : b ∉ p.placed
  depth : 3 * unplaced g p ≤ depth + 2

namespace Fresh

variable {s : Scope} {b : Nat}

theorem goes (h : Fresh g d depth s b p) {bs : List Nat} (hpq : Placed p q bs) (hb : b ∈ q.placed) :
    Going g d depth s b q :=
  ⟨h.lt, h.nested, h.allowed, h.inside, by have := hpq.unplaced_lt h.lt h.fresh hb; have := h.depth; omega⟩

theorem place (h : Fresh g d depth s b p) : Going g d depth s b (p.place b) :=
  h.goes (.place h.fresh) ((Placed.place h.fresh).placed b (by simp))

end Fresh

namespace Region

variable {walk : Walk}

theorem tryAt?_eq_none (hg : g.Formed) (p : Progress) (b : Nat) : tryAt? g p b = none := by simp [tryAt?, hg.tries]

theorem toList_ofList {items : List Region} (h : items.head?.any isOpening = true) : (ofList items).toList = items := by
  unfold ofList
  split
  · rename_i r
    cases r with
    | seq items => cases h
    | _ => rfl
  · rfl

/-- The body of a loop, without a `continue` at its end. -/
theorem loopBody_fits {latches : List Nat} {c : List Around} {label : Nat} {brk cont : Option Nat} {b : Nat}
    {items : List Region}
    (h : FitsAll g latches (⟨some label, brk, cont⟩ :: c) b items none) :
    ∃ m, Passes m cont ∧ Fits g latches (⟨some label, brk, cont⟩ :: c) b (ofList (withoutLastContinue items)) m := by
  rcases withoutLastContinue_cases items with hsame | hlast
  · rw [hsame]
    obtain ⟨m, hm, h⟩ := fits_ofList h
    exact ⟨m, hm.of_none, h⟩
  · rw [hlast] at h
    exact fits_ofList h.dropLast

theorem opens_loopBody {items : List Region} (h : items.head?.any isOpening = true) :
    (ofList (withoutLastContinue items)).opens = true := by
  have hhead : (withoutLastContinue items).head?.any isOpening = true := by
    rcases withoutLastContinue_cases items with hsame | hlast
    · rwa [hsame]
    · cases hrest : withoutLastContinue items with
      | nil =>
          rw [hlast, hrest] at h
          cases h
      | cons r rest =>
          rw [hlast, hrest] at h
          exact h
  rw [opens, toList_ofList hhead]
  exact hhead

theorem mem_carriersOf_of_opening {latches : List Nat} {c : List Around} {b : Nat} {k : Option Nat}
    {items : List Region}
    (h : FitsAll g latches c b items k) (hopens : items.head?.any isOpening = true) : b ∈ carriersOf items := by
  cases items with
  | nil => cases hopens
  | cons r rest =>
      obtain ⟨m, hr, -⟩ := h
      simp only [carriersOf, List.mem_append]
      exact .inl (hr.mem_carriers hopens)

theorem next_of_exit (hg : g.Formed) (hd : d.Loops g) {s : Scope} {l : Loop} (hl : l ∈ d.loops)
    (hs : Fresh g d depth s l.header p)
    (hne : ∀ exit body latch, .loop l.header exit body latch ∉ s.frames) {b out : Nat} (hb : b ∈ l.body)
    (hout : out ∈ g.succs b) :
    Next g s (some out) := by
  refine ⟨?_, ?_⟩
  · rintro _ ⟨⟩
    exact hg.succs_lt b (hd.body_lt l hl b hb) out hout
  · rintro _ ⟨⟩
    exact hs.nested.clear hd (inside_of_loop hd hs.nested hl hs.inside hne hb) hout

theorem latch_mem {s : Scope} {b : Nat} (hnested : Nested g d s.frames) (h : s.latch? = some b) : b ∈ d.latches g := by
  obtain ⟨header, exit, body, hframe⟩ := mem_frames_of_latch? h
  obtain ⟨l, hl, -, -, hdecides⟩ := hnested.loop hframe
  exact decidesAt_latches hl (hdecides b rfl)

section

variable {s : Scope} {l : Loop} (hl : l ∈ d.loops) (hs : Fresh g d depth s l.header p)
  (hne : ∀ exit body latch, .loop l.header exit body latch ∉ s.frames)
include hl hs hne

theorem nested_loop {exit latch : Option Nat} (hlatch : ∀ b ∈ latch, l.decidesAt g b) :
    Nested g d (.loop l.header exit l.body latch :: s.frames) :=
  ⟨hs.nested, hs.inside, hne, l, hl, rfl, rfl, hlatch⟩

omit hl hne in
theorem inside_loop (hheader : l.header ∈ l.body) {exit latch : Option Nat} (hlatch : latch ≠ some l.header) :
    Inside (.loop l.header exit l.body latch :: s.frames) l.header := by
  intro header exit' body latch' hf
  rcases List.mem_cons.mp hf with hf | hf
  · cases hf
    exact ⟨hheader, hlatch⟩
  · exact hs.inside _ _ _ _ hf

theorem ready_loop (hheader : l.header ∈ l.body) (hdepth : 3 * unplaced g p ≤ depth + 1) (exit latch : Option Nat)
    (hlatch : ∀ b ∈ latch, l.decidesAt g b) (hself : latch ≠ some l.header) :
    Ready g d depth ⟨none, .loop l.header exit l.body latch :: s.frames, s.allowed⟩ true l.header p :=
  ⟨hs.lt, nested_loop hl hs hne hlatch, hs.allowed, nofun, fun _ => ⟨hs.fresh, inside_loop hs hheader hself⟩,
    by rw [if_pos rfl]; omega⟩

theorem doWhile_fits (hg : g.Formed) (hd : d.Loops g) {latch out : Nat} {negated : Bool}
    (hlatch : latch ∈ d.latches g) (htests : l.TestsLast g latch negated out) {items : List Region}
    (h : FitsAll g (d.latches g) (⟨some l.header, some out, none⟩ :: s.frames.map around) l.header items none)
    (hopens : items.head?.any isOpening = true) :
    StepFits g d s l.header p
      ([.loop .doWhile l.header (some latch) negated (ofList (withoutLastContinue items))], some out) := by
  obtain ⟨m, hm, hfits⟩ := loopBody_fits h
  obtain rfl : m = none := Option.eq_none_iff_forall_not_mem.mpr fun b hb => nomatch hm b hb
  refine ⟨Fits.all ⟨rfl, ⟨latch, hlatch, rfl, htests.more, out, htests.leaves, rfl⟩, hfits⟩, ?_, .inl ?_⟩
  · exact next_of_exit hg hd hl hs hne (hd.latch_mem l hl latch (by simp [htests.only])) htests.out_mem
  · simpa [carriersOf, carriers] using mem_carriersOf_of_opening h hopens

end

section

variable (hg : g.Formed) (hd : d.Loops g) (hw : Follows g d depth walk)
include hg hd hw

theorem loopRegionAt_fits {s : Scope} {l : Loop} (hl : l ∈ d.loops) (hs : Fresh g d depth s l.header p)
    (hne : ∀ exit body latch, .loop l.header exit body latch ∉ s.frames) (hdepth : 3 * unplaced g p ≤ depth + 1) :
    Ends (loopRegionAt g d walk s l) p fun r _ => StepFits g d s l.header p r := by
  have hheader := hd.header_mem l hl
  refine .get ?_
  rcases loopShape_cases (g := g) (d := d) p l with ⟨negated, out, inner, hshape, htests⟩ |
    ⟨latch, negated, out, hshape, htests, hdecides⟩ | hshape
  · rw [hshape]
    have hgoing : Going g d depth ⟨none, .loop l.header (some out) l.body none :: s.frames, s.allowed⟩ l.header
      (p.place l.header) :=
      ⟨hs.lt, nested_loop hl hs hne nofun, hs.allowed, inside_loop hs hheader nofun, hs.place.depth⟩
    have hinner := hw _ false inner _ (hgoing.ready hg hd htests.inner_mem none)
    refine .bind (.modify (hinner.mono fun items q h =>
      .pure ⟨?_, next_of_exit hg hd hl hs hne hheader htests.out_mem, .inl ?_⟩))
    · obtain ⟨m, hm, hfits⟩ := loopBody_fits h.1
      exact Fits.all ⟨rfl, rfl, htests.ends, ⟨inner, htests.more, m, hm, hfits⟩, out, htests.leaves, rfl⟩
    · simp [carriersOf, carriers]
  · rw [hshape]
    have hlatch := decidesAt_latches hl hdecides
    refine .bind (.ite (fun hself => .modify (.pure (.pure
      (doWhile_fits hl hs hne hg hd hlatch htests (Fits.all ⟨rfl, .inr (.inr ?_)⟩) rfl)))) fun hself => ?_)
    · obtain rfl : latch = l.header := Option.some.inj hself
      exact hlatch
    · refine (hw _ true l.header p (ready_loop hl hs hne hheader hdepth _ _ ?_ hself)).mono fun items q h =>
        .pure (doWhile_fits hl hs hne hg hd hlatch htests h.1 (h.2 rfl))
      rintro _ ⟨⟩
      exact hdecides
  · rw [hshape]
    refine .bind ?_
    have hready := ready_loop hl hs hne hheader hdepth (endlessExit? g d p l) none nofun nofun
    refine (hw _ true l.header p hready).mono fun items q h => .pure ⟨?_, ?_, .inl ?_⟩
    · obtain ⟨m, hm, hfits⟩ := loopBody_fits h.1
      exact Fits.all ⟨rfl, opens_loopBody (h.2 rfl), m, hm, hfits⟩
    · cases hexit : endlessExit? g d p l with
      | none => exact .none
      | some out =>
          obtain ⟨-, b, hb, hout⟩ := endlessExit?_eq hexit
          exact next_of_exit hg hd hl hs hne hb hout
    · simpa [carriersOf, carriers] using mem_carriersOf_of_opening h.1 (h.2 rfl)

omit hg hd in
theorem leave_fits {s : Scope} {b : Nat} (hb : b < g.size) (hdepth : 3 * unplaced g p ≤ depth) :
    Ends (leave g d walk false b) p fun items _ => FitsAll g (d.latches g) (s.frames.map around) b items none := by
  refine .get (.ite (fun h => ?_) fun _ => .bind (.modify (.pure (Fits.all ⟨rfl, hb⟩))))
  have hfree : b ∉ p.placed := fun hp => by
    change p.placed.contains b = true at hp
    simp [hp] at h
  have hready : Ready g d depth .outermost false b p :=
    ⟨hb, trivial, rfl, fun _ => nofun, nofun, by simp [Scope.outermost, hfree]; omega⟩
  exact (hw _ false b p hready).mono fun items q h => h.1.append _

omit hg hw in
/-- What a block is inside of if it is none that decides the innermost loop, and belongs to that loop. -/
theorem inside_of_checks {s : Scope} {b : Nat} (hnested : Nested g d s.frames) (hlatch : s.latch? ≠ some b)
    (hloop : s.inLoop b = true) : Inside s.frames b := by
  refine hnested.inside hd fun header exit body latch hf => ?_
  have hfind : s.loop? = some (.loop header exit body latch) := hf
  refine ⟨by simpa [Scope.inLoop, hfind] using hloop, fun hl => hlatch ?_⟩
  simpa [Scope.latch?, hfind] using hl

theorem regionAt_fits {s : Scope} {b : Nat} (hp : Places walk) (hs : Ready g d (depth + 1) s false b p) :
    Ends (regionAt g d walk s b) p fun r _ => StepFits g d s b p r := by
  have hdepth := hs.depth
  rw [if_neg Bool.false_ne_true] at hdepth
  have htry : s.inTry b = true := by simp [Scope.inTry, hs.allowed]
  unfold regionAt
  split
  · rename_i jump hjump
    have hframes : s.frames ≠ [] := fun h => by simp [h, jump?] at hjump
    have hfits : Fits g (d.latches g) (([] ++ s.frames).map around) b jump none :=
      fits_of_jump? hs.nested (hs.clear rfl) hjump
    exact .modify (.pure ⟨hfits.all, .none, .inr ⟨rfl, fun h => absurd h hframes⟩⟩)
  · rename_i hjump
    refine .get (.ite (fun hlatch => .modify (.pure ?_)) fun hlatch => .ite (fun hout => ?_) fun hin =>
      .ite (fun hplaced => ?_) fun hfree => ?_)
    · obtain ⟨hlatch, -⟩ : s.latch? = some b ∧ _ := by simpa using hlatch
      refine ⟨Fits.all ⟨rfl, .inr (.inr (latch_mem hs.nested hlatch))⟩, .none, .inl (by simp [carriersOf, carriers])⟩
    · have hframes : s.frames ≠ [] := fun h => by simp [Scope.inLoop, Scope.loop?, h, htry] at hout
      rw [htry]
      refine .bind ((leave_fits hw hs.lt ?_).mono fun items q h =>
        .pure ⟨h, .none, .inr ⟨rfl, fun h => absurd h hframes⟩⟩)
      rw [if_neg fun h => hframes h.1] at hdepth
      omega
    · exact .bind (.bind (.modify (.pure (.pure ⟨Fits.all ⟨rfl, hs.lt⟩, .none, .inr ⟨rfl, fun _ => hplaced⟩⟩))))
    · have hinside : Inside s.frames b := by
        refine inside_of_checks hd hs.nested (fun h => hlatch ?_) ?_
        · simpa [h] using hfree
        · simpa [htry] using hin
      have hfresh : Fresh g d depth s b p :=
        ⟨hs.lt, hs.nested, hs.allowed, hinside, hfree, by split at hdepth <;> omega⟩
      split
      · rename_i l hl
        obtain rfl : l.header = b := by simpa using List.find?_some hl
        refine .get ?_
        rw [tryAt?_eq_none hg]
        refine loopRegionAt_fits hg hd hw (List.mem_of_find?_eq_some hl) hfresh ?_ (by split at hdepth <;> omega)
        exact fun exit body latch hf => jump?_ne_none hf (.inl rfl) hjump
      · refine .get ?_
        rw [tryAt?_eq_none hg]
        exact (plainAt_fits hg hd hw hp hfresh.place).mono fun r q h => h.1

end

theorem ready_of_step {s : Scope} {asBody : Bool} {b n : Nat} {items : List Region}
    (hs : Ready g d (depth + 1) s asBody b p)
    (h : StepFits g d s b p (items, some n)) (hpq : Placed p q (carriersOf items)) : Ready g d depth s false n q := by
  have hb : b ∈ carriersOf items := h.carried.resolve_right fun hnone => nomatch hnone.1
  have hlt := hpq.unplaced_lt hs.lt (hpq.fresh b hb) (hpq.placed b hb)
  have hdepth := hs.depth
  refine ⟨h.next.lt n rfl, hs.nested, hs.allowed, fun _ => h.next.clear n rfl, nofun, ?_⟩
  split at hdepth
  · omega
  · split at hdepth <;> omega

/-- What a walk from a block has returned, if the rest of it begins at the block that comes after the first step. -/
theorem followed_of_step {s : Scope} {asBody : Bool} {b n : Nat} {items more : List Region}
    (h : StepFits g d s b p (items, some n)) (hopens : asBody = true → items.head?.any isOpening = true)
    (hmore : Followed g d s false n q more) : Followed g d s asBody b p (items ++ more) := by
  refine ⟨h.fits.then hmore.fits, fun hbody => ?_, fun _ _ => ?_⟩
  · cases items with
    | nil => cases hopens hbody
    | cons r rest => exact hopens hbody
  · rw [carriersOf_append, List.mem_append]
    exact .inl (h.carried.resolve_right fun hnone => nomatch hnone.1)

theorem follow_follows (hg : g.Formed) (hd : d.Loops g) (depth : Nat) : Follows g d depth (follow g d depth) := by
  induction depth with
  | zero =>
      -- The block that the walk is at has not been placed, or it is counted on top of those that have not.
      intro s asBody b p hs
      have hdepth := hs.depth
      split at hdepth
      · have := unplaced_pos hs.lt (hs.body ‹_›).1
        omega
      · split at hdepth
        · have := unplaced_pos hs.lt (And.right ‹_›)
          omega
        · omega
  | succ depth ih =>
      intro s asBody b p hs
      have hp := follow_places g d depth
      refine .ite (fun hend => .pure ?_) fun _ => ?_
      · obtain ⟨hbody, hfollow⟩ : asBody = false ∧ s.follow = some b := by simpa using hend
        exact ⟨hfollow, fun h => by simp [h] at hbody, fun h => by simp [h, Scope.outermost] at hfollow⟩
      · have hstep : Ends (if asBody then tryOrPlainAt g d (follow g d depth) s true b
            else regionAt g d (follow g d depth) s b) p fun r q =>
              (StepFits g d s b p r ∧ (asBody = true → r.1.head?.any isOpening = true)) ∧
                Placed p q (carriersOf r.1) := by
          refine .ite (fun hbody => ?_) fun hbody => ?_
          · have hdepth := hs.depth
            rw [if_pos hbody] at hdepth
            have hfresh : Fresh g d depth s b p :=
              ⟨hs.lt, hs.nested, hs.allowed, (hs.body hbody).2, (hs.body hbody).1, by omega⟩
            refine Ends.and (.get ?_) (tryOrPlainAt_places hp s true hfresh.fresh)
            rw [tryAt?_eq_none hg]
            exact (plainAt_fits hg hd ih hp hfresh.place).mono fun r q h => ⟨h.1, fun _ => h.2⟩
          · obtain rfl : asBody = false := by simpa using hbody
            exact ((regionAt_fits hg hd ih hp hs).mono fun r q h => ⟨h, nofun⟩).and (regionAt_places hp s b p)
        cases asBody <;> refine .bind (hstep.mono fun r q h => ?_)
        all_goals
          obtain ⟨⟨hfits, hopens⟩, hplaced⟩ := h
          obtain ⟨items, next⟩ := r
          cases next with
          | none =>
              refine .pure ⟨hfits.fits.anywhere, hopens, fun h hb => ?_⟩
              exact hfits.carried.resolve_right fun hnone => hb (hnone.2 (by rw [h]; rfl))
          | some n =>
              refine .bind ((ih s false n q (ready_of_step hs hfits hplaced)).mono fun more q' h' => .pure ?_)
              exact followed_of_step hfits hopens h'

theorem unplaced_le_size (g : Graph) (p : Progress) : unplaced g p ≤ g.size := by
  simpa [unplaced] using Finset.card_filter_le (Finset.range g.size) fun b => b ∉ p.placed

theorem whole_fits (hg : g.Formed) (hd : d.Loops g) {b : Nat} (hb : b < g.size) (p : Progress) :
    Ends (whole g d b) p fun items _ =>
      FitsAll g (d.latches g) [] b items none ∧ (b ∉ p.placed → b ∈ carriersOf items) := by
  have hready : Ready g d (depthBound g) .outermost false b p := by
    refine ⟨hb, trivial, rfl, fun _ => nofun, nofun, Nat.le_add_right_of_le ?_⟩
    have := unplaced_le_size g p
    unfold depthBound
    omega
  exact (follow_follows hg hd _ _ _ _ _ hready).mono fun items q h => ⟨h.fits, h.carried rfl⟩

theorem fitsAll_append {latches : List Nat} {c : List Around} {b : Nat} {items more : List Region}
    (h : FitsAll g latches c b items none) (hmore : more = [] ∨ ∃ n, FitsAll g latches c n more none) :
    FitsAll g latches c b (items ++ more) none := by
  rcases hmore with rfl | ⟨n, hmore⟩
  · rwa [List.append_nil]
  · exact h.anywhere.then hmore

theorem rest_fits (hg : g.Formed) (hd : d.Loops g) (bs : List Nat) (hbs : ∀ b ∈ bs, b < g.size) (p : Progress) :
    Ends (rest g d bs) p fun items _ => (items = [] ∨ ∃ n, FitsAll g (d.latches g) [] n items none) ∧
      ∀ b ∈ bs, b ∈ p.placed ∨ b ∈ carriersOf items := by
  induction bs generalizing p with
  | nil => exact .pure ⟨.inl rfl, nofun⟩
  | cons b bs ih =>
      rw [List.forall_mem_cons] at hbs
      refine .get (.ite (fun hb => (ih hbs.2 p).mono fun items q h => ⟨h.1, ?_⟩) fun hb => .modify (.bind ?_))
      · exact List.forall_mem_cons.mpr ⟨.inl hb, h.2⟩
      · have hwhole := (whole_fits hg hd hbs.1 (p.label b)).and
          (follow_places g d (depthBound g) .outermost false b (p.label b) nofun)
        refine hwhole.mono fun items q h => .bind ((ih hbs.2 q).mono fun more q' h' => .pure ⟨.inr ⟨b, ?_⟩, ?_⟩)
        · exact fitsAll_append h.1.1 h'.1
        · simp only [carriersOf_append, List.mem_append]
          refine List.forall_mem_cons.mpr ⟨.inr (.inl (h.1.2 hb)), fun t ht => ?_⟩
          rcases h'.2 t ht with hq | hmore
          · exact (h.2.only t hq).imp_right .inl
          · exact .inr (.inr hmore)

/-- The tree of a graph without exceptions fits the graph, and carries all of its blocks. -/
theorem everything_fits (hg : g.Formed) (hd : d.Loops g) :
    Ends (everything g d) .start fun items _ =>
      FitsAll g (d.latches g) [] g.entry items none ∧ ∀ b < g.size, b ∈ carriersOf items := by
  have hwhole := (whole_fits hg hd hg.entry .start).and
    (follow_places g d (depthBound g) .outermost false g.entry .start nofun)
  refine .bind (hwhole.mono fun items q h => ?_)
  have hrest := rest_fits hg hd (List.range g.size) (fun b hb => List.mem_range.mp hb) q
  refine .bind (hrest.mono fun more q' h' => .pure ⟨fitsAll_append h.1.1 h'.1, fun b hb => ?_⟩)
  rw [carriersOf_append, List.mem_append]
  refine (h'.2 b (List.mem_range.mpr hb)).imp_left fun hq => ?_
  refine (h.2.only b hq).resolve_left fun hnone => ?_
  have hempty : NatSet.empty.contains b = true := hnone
  simp at hempty

end Region

end JavaLift
