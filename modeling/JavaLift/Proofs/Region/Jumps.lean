import JavaLift.Proofs.Region.Surroundings
import JavaLift.Proofs.Region.Building

namespace JavaLift

namespace Frame

def exit? : Frame → Option Nat
  | .loop _ exit _ _ => exit
  | .switch exit => exit

/-- The construct that a `break` leaves: the innermost one, or the loop with the label. -/
def left? (frames : List Frame) : Option Nat → Option Frame
  | none => frames.head?
  | some label => frames.find? fun f => f.header? == some label

/-- The loop that a `continue` starts again: the innermost one, or that with the label. -/
def again? (frames : List Frame) : Option Nat → Option Frame
  | none => frames.find? isLoop
  | some label => frames.find? fun f => f.header? == some label

def Lands (frames : List Frame) (b : Nat) : Region → Prop
  | .brk label => ∃ f ∈ left? frames label, f.exit? = some b
  | .cont label => ∃ f ∈ again? frames label, f.header? = some b
  | _ => False

/-- The word for a jump says which construct it is for: a loop that is started again, a loop that is left, or the
innermost switch. -/
inductive Worded (b : Nat) (passed : List Frame) : Frame → Region → Prop
  | again {exit : Option Nat} {body : List Nat} {latch : Option Nat} :
    Worded b passed (.loop b exit body latch) (.cont (if passed.any isLoop then some b else none))
  | leaveLoop {header : Nat} {body : List Nat} {latch : Option Nat} :
    Worded b passed (.loop header (some b) body latch) (.brk (if passed.isEmpty then none else some header))
  | leaveSwitch (innermost : passed = []) : Worded b passed (.switch (some b)) (.brk none)

variable {b : Nat} {passed frames : List Frame} {r : Region}

theorem worded_of_jump? (h : jump? b passed frames = some r) :
    ∃ inner f outer, frames = inner ++ f :: outer ∧ Worded b (passed ++ inner) f r := by
  induction frames generalizing passed with
  | nil => cases h
  | cons frame frames ih =>
      -- A frame that does not catch the jump is passed.
      have hpass (h : jump? b (passed ++ [frame]) frames = some r) :
          ∃ inner f outer, frame :: frames = inner ++ f :: outer ∧ Worded b (passed ++ inner) f r := by
        obtain ⟨inner, f, outer, rfl, hworded⟩ := ih h
        exact ⟨frame :: inner, f, outer, rfl, by simpa using hworded⟩
      have hhere (h : Worded b passed frame r) :
          ∃ inner f outer, frame :: frames = inner ++ f :: outer ∧ Worded b (passed ++ inner) f r :=
        ⟨[], frame, frames, rfl, by simpa using h⟩
      cases frame with
      | loop header exit body latch =>
          simp only [jump?] at h
          split at h
          · rename_i hheader
            cases h
            subst hheader
            exact hhere .again
          · split at h
            · rename_i hexit
              cases h
              subst hexit
              exact hhere .leaveLoop
            · exact hpass h
      | switch exit =>
          simp only [jump?] at h
          split at h
          · rename_i hexit
            obtain ⟨rfl, hempty⟩ := hexit
            cases h
            exact hhere (.leaveSwitch (by simpa using hempty))
          · exact hpass h

/-- Where labels are distinct, the frame of a labelled loop is the one that is found by the label. -/
theorem find?_header {inner outer : List Frame} {f : Frame} {header : Nat} (hdistinct : Distinct (inner ++ f :: outer))
    (hf : f.header? = some header) :
    (inner ++ f :: outer).find? (fun f => f.header? == some header) = some f := by
  rw [List.find?_append, List.find?_eq_none.mpr, Option.none_or, List.find?_cons_of_pos (by simp [hf])]
  intro f' hf' hsame
  rw [Distinct, List.filterMap_append, List.filterMap_cons, hf] at hdistinct
  have hmem : header ∈ inner.filterMap header? := List.mem_filterMap.mpr ⟨f', hf', by simpa using hsame⟩
  exact (List.nodup_append.mp hdistinct).2.2 header hmem header List.mem_cons_self rfl

theorem lands_of_jump? (hdistinct : Distinct frames) (h : jump? b [] frames = some r) : Lands frames b r := by
  obtain ⟨inner, f, outer, rfl, hworded⟩ := worded_of_jump? h
  rw [List.nil_append] at hworded
  cases hworded with
  | @again exit body latch =>
      refine ⟨.loop b exit body latch, ?_, rfl⟩
      split
      · exact find?_header hdistinct rfl
      · rename_i hloop
        have hnone : inner.find? isLoop = none :=
          List.find?_eq_none.mpr fun f hf hf' => hloop (List.any_eq_true.mpr ⟨f, hf, hf'⟩)
        simp [again?, List.find?_append, hnone, isLoop]
  | @leaveLoop header body latch =>
      refine ⟨.loop header (some b) body latch, ?_, rfl⟩
      split
      · rename_i hempty
        obtain rfl : inner = [] := by simpa using hempty
        rfl
      · exact find?_header hdistinct rfl
  | leaveSwitch hempty =>
      subst hempty
      exact ⟨_, rfl, rfl⟩

end Frame

/-- What jumps can name: a loop by its header, or a switch. -/
inductive Construct where
  | loop (header : Nat)
  | switch
deriving DecidableEq

def Frame.construct : Frame → Construct
  | .loop header .. => .loop header
  | .switch _ => .switch

namespace Region

structure Labels where
  blocks : NatSet
  loops : NatSet

structure Labels.Within (l l' : Labels) : Prop where
  blocks : ∀ b ∈ l.blocks, b ∈ l'.blocks
  loops : ∀ b ∈ l.loops, b ∈ l'.loops

section

variable (g : Graph) (l : Labels)

mutual

/-- Inside the given constructs, the innermost first, every jump of the region stands in the one that it is for, and what
it names has a label. -/
def Scoped (around : List Construct) : Region → Prop
  | .seq items => ScopedAll around items
  | .block _ => True
  | .branch _ _ thenPart none => Scoped around thenPart
  | .branch _ _ thenPart (some elsePart) => Scoped around thenPart ∧ Scoped around elsePart
  | .loop _ header _ _ body => Scoped (.loop header :: around) body
  | .switch _ cases => ScopedCases (.switch :: around) cases
  | .guarded body catches => Scoped around body ∧ ScopedCatches around catches
  | .brk none => around ≠ []
  | .cont none => ∃ header, .loop header ∈ around
  | .brk (some header) | .cont (some header) => .loop header ∈ around ∧ header ∈ l.loops
  | .goto target => target ∈ l.blocks
  | .raw b => ∀ n ∈ g.exits b, n ∈ l.blocks

def ScopedAll (around : List Construct) : List Region → Prop
  | [] => True
  | r :: rest => Scoped around r ∧ ScopedAll around rest

def ScopedCases (around : List Construct) : List (CaseHead × Region) → Prop
  | [] => True
  | (_, r) :: rest => Scoped around r ∧ ScopedCases around rest

def ScopedCatches (around : List Construct) : List (CatchHead × Region) → Prop
  | [] => True
  | (_, r) :: rest => Scoped around r ∧ ScopedCatches around rest

end

end

section

variable {g : Graph} {l : Labels}

mutual

theorem Scoped.append (outer : List Construct) : (r : Region) → ∀ around : List Construct,
    Scoped g l around r → Scoped g l (around ++ outer) r
  | .seq items, around, h => ScopedAll.append outer items around h
  | .block _, _, h => h
  | .branch _ _ thenPart none, around, h => Scoped.append outer thenPart around h
  | .branch _ _ thenPart (some elsePart), around, h =>
    ⟨Scoped.append outer thenPart around h.1, Scoped.append outer elsePart around h.2⟩
  | .loop _ _ _ _ body, around, h => Scoped.append outer body (_ :: around) h
  | .switch _ cases, around, h => ScopedCases.append outer cases (_ :: around) h
  | .guarded body catches, around, h =>
    ⟨Scoped.append outer body around h.1, ScopedCatches.append outer catches around h.2⟩
  | .brk none, _, h => List.append_ne_nil_of_left_ne_nil h _
  | .cont none, _, ⟨header, h⟩ => ⟨header, List.mem_append_left _ h⟩
  | .brk (some _), _, h | .cont (some _), _, h => ⟨List.mem_append_left _ h.1, h.2⟩
  | .goto _, _, h | .raw _, _, h => h

theorem ScopedAll.append (outer : List Construct) : (items : List Region) → ∀ around : List Construct,
    ScopedAll g l around items → ScopedAll g l (around ++ outer) items
  | [], _, _ => trivial
  | r :: rest, around, h => ⟨Scoped.append outer r around h.1, ScopedAll.append outer rest around h.2⟩

theorem ScopedCases.append (outer : List Construct) : (cases : List (CaseHead × Region)) →
    ∀ around : List Construct, ScopedCases g l around cases → ScopedCases g l (around ++ outer) cases
  | [], _, _ => trivial
  | (_, r) :: rest, around, h => ⟨Scoped.append outer r around h.1, ScopedCases.append outer rest around h.2⟩

theorem ScopedCatches.append (outer : List Construct) : (catches : List (CatchHead × Region)) →
    ∀ around : List Construct, ScopedCatches g l around catches → ScopedCatches g l (around ++ outer) catches
  | [], _, _ => trivial
  | (_, r) :: rest, around, h => ⟨Scoped.append outer r around h.1, ScopedCatches.append outer rest around h.2⟩

end

variable {around : List Construct} {items more : List Region}

theorem scopedAll_iff : ScopedAll g l around items ↔ ∀ r ∈ items, Scoped g l around r := by
  induction items with
  | nil => simp [ScopedAll]
  | cons r rest ih => rw [ScopedAll, ih, List.forall_mem_cons]

theorem scoped_ofList (h : ScopedAll g l around items) : Scoped g l around (ofList items) := by
  unfold ofList
  split
  · exact h.1
  · exact h

theorem scopedAll_withoutLastContinue (h : ScopedAll g l around items) :
    ScopedAll g l around (withoutLastContinue items) := by
  rw [scopedAll_iff] at h ⊢
  rcases withoutLastContinue_cases items with hsame | hsplit
  · rwa [hsame]
  · exact fun r hr => h r (hsplit ▸ List.mem_append_left _ hr)

theorem scopedCases_zip (heads : List CaseHead) {bodies : List Region} (h : ScopedAll g l around bodies) :
    ScopedCases g l around (heads.zip bodies) := by
  induction heads generalizing bodies with
  | nil => exact trivial
  | cons head heads ih =>
      cases bodies with
      | nil => exact trivial
      | cons body bodies => exact ⟨h.1, ih h.2⟩

theorem scopedCatches_map {catches : List (CatchHead × Region)} (h : ScopedAll g l around (catches.map (·.2))) :
    ScopedCatches g l around catches := by
  induction catches with
  | nil => exact trivial
  | cons c catches ih => exact ⟨h.1, ih h.2⟩

end

end Region

def Progress.given (p : Progress) : Region.Labels := ⟨p.labels, p.loopLabels⟩

namespace Region

variable {g : Graph} {p q : Progress} {frames : List Frame} {items more : List Region} {b : Nat} {r : Region}

theorem Labels.Within.refl (l : Labels) : l.Within l := ⟨fun _ h => h, fun _ h => h⟩

theorem Labels.Within.trans {l l' l'' : Labels} (h : l.Within l') (h' : l'.Within l'') : l.Within l'' :=
  ⟨fun b hb => h'.blocks b (h.blocks b hb), fun b hb => h'.loops b (h.loops b hb)⟩

def anyFallback (items : List Region) : Bool := (nodesOf items).any isFallback

theorem anyFallback_append (items more : List Region) :
    anyFallback (items ++ more) = (anyFallback items || anyFallback more) := by
  simp [anyFallback, nodesOf_append]

theorem anyFallback_ofList (items : List Region) : anyFallback [ofList items] = anyFallback items := by
  unfold ofList
  split
  · rfl
  · simp [anyFallback, nodesOf, nodes, isFallback]

theorem anyFallback_withoutLastContinue (items : List Region) :
    anyFallback (withoutLastContinue items) = anyFallback items := by
  rcases withoutLastContinue_cases items with hsame | hsplit
  · rw [hsame]
  · conv_rhs => rw [hsplit]
    rw [anyFallback_append]
    simp [anyFallback, nodesOf, nodes, isFallback]

theorem nodesOfCatches_eq (catches : List (CatchHead × Region)) :
    nodesOfCatches catches = nodesOf (catches.map (·.2)) := by
  induction catches with
  | nil => rfl
  | cons c catches ih => simp [nodesOf, nodesOfCatches, ih]

theorem anyFallback_guarded (body : Region) (catches : List (CatchHead × Region)) :
    anyFallback [.guarded body catches] = (anyFallback [body] || anyFallback (catches.map (·.2))) := by
  simp [anyFallback, nodesOf, nodes, isFallback, nodesOfCatches_eq]

theorem anyFallback_loop (kind : LoopKind) (header : Nat) (cond : Option Nat) (negated : Bool) (items : List Region) :
    anyFallback [.loop kind header cond negated (ofList (withoutLastContinue items))] = anyFallback items := by
  rw [← anyFallback_withoutLastContinue items, ← anyFallback_ofList (withoutLastContinue items)]
  simp [anyFallback, nodesOf, nodes, isFallback]

/-- What a walk has built: labels are only added, the jumps are in scope whatever labels come later, and a remark has
been left for each jump that has no word. -/
structure Jumping (g : Graph) (frames : List Frame) (p : Progress) (items : List Region) (q : Progress) : Prop where
  labels : p.given.Within q.given
  inScope : ∀ l, q.given.Within l → ScopedAll g l (frames.map Frame.construct) items
  remarks : q.diagnostics = [] ↔ p.diagnostics = [] ∧ anyFallback items = false

namespace Jumping

theorem silent (hlabels : p.given.Within q.given) (hremarks : q.diagnostics = p.diagnostics) :
    Jumping g frames p [] q := ⟨hlabels, fun _ _ => trivial, by simp [hremarks, anyFallback, nodesOf]⟩

theorem append {r : Progress} (h : Jumping g frames p items q) (h' : Jumping g frames q more r) :
    Jumping g frames p (items ++ more) r where
  labels := h.labels.trans h'.labels
  inScope l hl := by
    rw [scopedAll_iff, List.forall_mem_append, ← scopedAll_iff, ← scopedAll_iff]
    exact ⟨h.inScope l (h'.labels.trans hl), h'.inScope l hl⟩
  remarks := by rw [h'.remarks, h.remarks, anyFallback_append, Bool.or_eq_false_iff, and_assoc]

/-- A region that has no parts, stands where it may, and leaves no remark. -/
theorem leaf (hnodes : nodes r = [r]) (hr : r.isFallback = false)
    (hinScope : ∀ l, Scoped g l (frames.map Frame.construct) r) : Jumping g frames p [r] p :=
  ⟨.refl _, fun l _ => ⟨hinScope l, trivial⟩, by simp [anyFallback, nodesOf, hnodes, hr]⟩

theorem wrap {frames' : List Frame} (h : Jumping g frames' p items q) (hinScope : ∀ l, ScopedAll g l
    (frames'.map Frame.construct) items → Scoped g l (frames.map Frame.construct) r)
    (hfallback : anyFallback [r] = anyFallback items) : Jumping g frames p [r] q :=
  ⟨h.labels, fun l hl => ⟨hinScope l (h.inScope l hl), trivial⟩, by rw [h.remarks, hfallback]⟩

/-- Labels and remarks do not depend on what has been placed. -/
theorem placed (h : Jumping g frames (p.place b) items q) : Jumping g frames p items q :=
  ⟨h.labels, h.inScope, h.remarks⟩

theorem label : Jumping g frames p [] (p.label b) := by
  refine silent ⟨fun x hx => ?_, fun _ hx => hx⟩ rfl
  change (p.labels.insert b).contains x = true
  rw [NatSet.contains_insert, Bool.or_eq_true]
  exact .inl hx

theorem goto {target : Nat} {message : String} :
    Jumping g frames p [.goto target] ((p.remark message).label target) where
  labels := (label : Jumping g frames p [] (p.label target)).labels
  inScope l hl := by
    refine ⟨hl.blocks target ?_, trivial⟩
    change (p.labels.insert target).contains target = true
    simp [NatSet.contains_insert]
  remarks := by simp [Progress.label, Progress.remark, anyFallback, nodesOf, nodes, isFallback]

theorem jump (h : Frame.jump? b [] frames = some r) : Jumping g frames p [r] (p.labelLoop r) := by
  obtain ⟨inner, f, outer, rfl, hworded⟩ := Frame.worded_of_jump? h
  rw [List.nil_append] at hworded
  have hloop {header : Nat} {exit : Option Nat} {body : List Nat} {latch : Option Nat} :
      Construct.loop header ∈ (inner ++ .loop header exit body latch :: outer).map Frame.construct := by
    simp [Frame.construct]
  have hlabelled (header : Nat) (r : Region) (hr : r = .brk (some header) ∨ r = .cont (some header))
      (hin : Construct.loop header ∈ (inner ++ f :: outer).map Frame.construct) :
      Jumping g (inner ++ f :: outer) p [r] (p.labelLoop r) := by
    have hinsert (x : Nat) : x ∈ p.loopLabels.insert header ↔ x ∈ p.loopLabels ∨ header = x := by
      change (p.loopLabels.insert header).contains x = true ↔ p.loopLabels.contains x = true ∨ header = x
      simp [NatSet.contains_insert]
    rcases hr with rfl | rfl
    all_goals
      refine ⟨⟨fun _ hx => hx, fun x hx => (hinsert x).mpr (.inl hx)⟩, fun l hl => ⟨⟨hin, ?_⟩, trivial⟩, ?_⟩
      · exact hl.loops header ((hinsert header).mpr (.inr rfl))
      · simp [Progress.labelLoop, anyFallback, nodesOf, nodes, isFallback]
  cases hworded with
  | again =>
      split
      · exact hlabelled _ _ (.inr rfl) hloop
      · exact leaf rfl rfl fun _ => ⟨_, hloop⟩
  | leaveLoop =>
      split
      · exact leaf rfl rfl fun _ => List.ne_nil_of_mem hloop
      · exact hlabelled _ _ (.inl rfl) hloop
  | leaveSwitch hempty =>
      subst hempty
      exact leaf rfl rfl fun _ => List.cons_ne_nil _ _

theorem buildable (g : Graph) (d : Dominance) : Buildable g d (Jumping g) where
  nil := silent (.refl _) rfl
  append := append
  place := silent (.refl _) rfl
  guard := silent (.refl _) rfl
  label _ := label
  inside h := ⟨h.labels, fun l hl => ScopedAll.append _ _ _ (h.inScope l hl), h.remarks⟩
  ofList h := h.wrap (fun _ => scoped_ofList) (anyFallback_ofList _)
  block := leaf rfl rfl fun _ => trivial
  jump := jump
  goto _ := goto
  leaveSwitch := leaf rfl rfl fun _ => List.cons_ne_nil _ _
  branch h := h.wrap (fun _ h => h.1) (by simp [anyFallback, nodesOf, nodes, isFallback])
  branchElse h := h.wrap (fun _ h => ⟨h.1, h.2.1⟩) (by simp [anyFallback, nodesOf, nodes, isFallback])
  loop _ _ h := h.placed.wrap (fun _ h => scoped_ofList (scopedAll_withoutLastContinue h)) (anyFallback_loop ..)
  switch hlength h := h.wrap (fun _ h => scopedCases_zip _ h) (by
    simp [anyFallback, nodesOf, nodes, isFallback, nodesOfCases_zip _ _ hlength])
  guarded _ _ h h' := (h.append h').wrap (fun l hall => by
    rw [scopedAll_iff, List.forall_mem_append, ← scopedAll_iff, ← scopedAll_iff] at hall
    exact ⟨hall.1.1, scopedCatches_map hall.2⟩) (by rw [anyFallback_guarded, anyFallback_append])

end Jumping

end Region

open Region JavaLift.Frame

namespace Structured

variable {insns : List Insn} {tries : List TryRange} {length : Nat} {g : Graph}

theorem nodesOf_raw (bs : List Nat) : nodesOf (bs.map .raw) = bs.map .raw := by
  induction bs with
  | nil => rfl
  | cons b bs ih => simp [nodesOf, nodes, ih]

/-- Where the blocks are given in the order of the code, every block that follows one has a label. -/
theorem scoped_ofBlocks (g : Graph) :
    Scoped g ⟨(ofBlocks g).labels, (ofBlocks g).loopLabels⟩ [] (ofBlocks g).root := by
  refine scopedAll_iff.mpr fun r hr => ?_
  obtain ⟨b, hb, rfl⟩ := List.mem_map.mp hr
  intro n hn
  exact (NatSet.contains_ofList ..).mpr (List.mem_flatMap.mpr ⟨b, List.mem_mergeSort.mp hb, hn⟩)

theorem hasFallback_ofBlocks (hg : 0 < g.size) : (ofBlocks g).root.hasFallback = true := by
  refine List.any_eq_true.mpr ⟨.raw 0, ?_, rfl⟩
  simp [ofBlocks, nodes, nodesOf_raw, hg]

theorem scoped_of (g : Graph) : Scoped g ⟨(of g).labels, (of g).loopLabels⟩ [] (of g).root := by
  rcases of_cases g with hof | ⟨items, p, hrun, hof⟩
  · rw [hof]
    exact scoped_ofBlocks g
  · have hjumping := everything_builds (Jumping.buildable g (Dominance.of g)) (.silent (.refl _) rfl) .start
    rw [Ends, show everything g (Dominance.of g) .start = (items, p) from hrun] at hjumping
    rw [hof]
    exact scoped_ofList (hjumping.inScope _ (.refl _))

theorem hasFallback_of (hg : 0 < g.size) : (of g).root.hasFallback = true ↔ (of g).diagnostics ≠ [] := by
  rcases of_cases g with hof | ⟨items, p, hrun, hof⟩
  · rw [hof]
    exact iff_of_true (hasFallback_ofBlocks hg) (List.cons_ne_nil _ _)
  · have hjumping := everything_builds (Jumping.buildable g (Dominance.of g)) (.silent (.refl _) rfl) .start
    rw [Ends, show everything g (Dominance.of g) .start = (items, p) from hrun] at hjumping
    have hfallback : (ofList items).hasFallback = anyFallback items := by
      rw [← anyFallback_ofList]
      simp [hasFallback, anyFallback, nodesOf]
    rw [hof, hfallback, Ne, hjumping.remarks]
    simp [Progress.start]

/-- In what a graph is structured to, every jump that has a word stands in the construct that it is for, and every one
that has none goes to a block with a label; there are such jumps just when remarks are left. The word for a jump leads
to the block that was asked for wherever the loops around have distinct headers, and that is so in every scope that a
walk meets: a step goes on with walks in these only, and it makes no difference what a walk would do elsewhere. -/
theorem jumps_scoped (h : Graph.build insns tries length = .ok g) :
    Scoped g ⟨(of g).labels, (of g).loopLabels⟩ [] (of g).root ∧
    ((of g).root.hasFallback = true ↔ (of g).diagnostics ≠ []) ∧
    (∀ frames, Distinct frames → ∀ b r, jump? b [] frames = some r → Lands frames b r) ∧
    (∀ s, Met s → Distinct s.frames) ∧
    (∀ s walk walk', (∀ s', GoesOn s s' → walk s' = walk' s') →
      advance g (Dominance.of g) walk s = advance g (Dominance.of g) walk' s) ∧
    ∀ b elsewhere, whole g (Dominance.of g) b =
      (fun walk => inside (advance g (Dominance.of g) walk) elsewhere)^[depthBound g] (fun _ _ _ => return [])
        .outermost false b :=
  ⟨scoped_of g, hasFallback_of (Nat.zero_lt_of_lt (Graph.build_closed h).entry_lt),
    fun _ hdistinct _ _ hr => lands_of_jump? hdistinct hr, fun _ hmet => hmet.distinct,
    fun _ _ _ hsame => advance_congr hsame, fun b elsewhere => whole_inside elsewhere b⟩

theorem jumps_scoped_guardedCalls :
    ∃ g, Graph.build guardedCalls [⟨0, 4, [⟨none, 5⟩]⟩] 7 = .ok g ∧
      Scoped g ⟨(of g).labels, (of g).loopLabels⟩ [] (of g).root :=
  ⟨_, rfl, (@jumps_scoped guardedCalls [⟨0, 4, [⟨none, 5⟩]⟩] 7 _ rfl).1⟩

end Structured

end JavaLift
