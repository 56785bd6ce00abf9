import JavaLift.Proofs.Region.Totality

/-!
What walks build. A walk puts regions together in few ways, and says in its state what it has done. A relation between
the constructs around a walk, the state before it, the regions it gives and the state after it holds of all walks, if
each of these ways keeps it. A loop is only built where its header has not been placed, and no walk comes to a block
that is not in the graph, if control does not leave the graph.
-/

namespace JavaLift

open JavaLift.Frame

namespace Region

/-- The clauses of a guarded range: of the handlers at one block only the first one gets a clause. -/
def clauses (seen : List Nat) : List HandlerBlock → List CatchHead
  | [] => []
  | h :: rest =>
    if seen.contains h.block then clauses seen rest else ⟨h.exception, h.block⟩ :: clauses (h.block :: seen) rest

def Known (g : Graph) (d : Dominance) (b : Nat) : Prop := g.Ranged d → b < g.size

/-- The relation holds of everything that a walk puts together out of parts of which it holds. The header of a loop counts
as placed while the body is built. -/
structure Buildable (g : Graph) (d : Dominance) (I : List Frame → Progress → List Region → Progress → Prop) : Prop where
  nil : ∀ {frames p}, I frames p [] p
  append : ∀ {frames p q r items more}, I frames p items q → I frames q more r → I frames p (items ++ more) r
  place : ∀ {frames p b}, I frames p [] (p.place b)
  guard : ∀ {frames p n}, I frames p [] (p.guard n)
  label : ∀ {frames p b}, Known g d b → I frames p [] (p.label b)
  inside : ∀ {frames p q items}, I [] p items q → I frames p items q
  ofList : ∀ {frames p q items}, I frames p items q → I frames p [ofList items] q
  block : ∀ {frames p b}, I frames p [.block b] p
  jump : ∀ {frames p b r}, jump? b [] frames = some r → I frames p [r] (p.labelLoop r)
  goto : ∀ {frames p target message}, Known g d target → I frames p [.goto target] ((p.remark message).label target)
  leaveSwitch : ∀ {frames p exit}, I (.switch exit :: frames) p [.brk none] p
  branch : ∀ {frames p q b negated thenPart}, I frames p [thenPart] q → I frames p [.branch b negated thenPart none] q
  branchElse : ∀ {frames p q b negated thenPart elsePart}, I frames p [thenPart, elsePart] q →
    I frames p [.branch b negated thenPart (some elsePart)] q
  loop : ∀ {frames p q kind header cond negated exit body latch items}, Known g d header → header ∉ p.placed →
    I (.loop header exit body latch :: frames) (p.place header) items q →
      I frames p [.loop kind header cond negated (Region.ofList (withoutLastContinue items))] q
  switch : ∀ {frames p q b exit} {heads : List CaseHead} {bodies : List Region}, heads.length = bodies.length →
    I (.switch exit :: frames) p bodies q → I frames p [.switch b (heads.zip bodies)] q
  guarded : ∀ {frames p q r body catches} {t : TryRegion}, t ∈ g.tries → catches.map (·.1) = clauses [] t.handlers →
    I frames p [body] q → I frames q (catches.map (·.2)) r → I frames p [.guarded body catches] r

/-- What has been placed when a walk begins: a body is built as if its first block were in place. -/
def begun (asBody : Bool) (b : Nat) (p : Progress) : Progress := if asBody then p.place b else p

def Builds (g : Graph) (d : Dominance) (I : List Frame → Progress → List Region → Progress → Prop) (walk : Walk) : Prop :=
  ∀ s asBody b p, Known g d b → (asBody = true → b ∉ p.placed) →
    Ends (walk s asBody b) p fun items q => I s.frames (begun asBody b p) items q

section

variable {g : Graph} {d : Dominance} {b : Nat}

theorem known_succ {n : Nat} (hn : n ∈ g.succs b) : Known g d n := fun hg => hg.succs_lt hn

theorem known_merge {s : Scope} {n : Nat} (hn : mergeOf d s b = some n) : Known g d n :=
  fun hg => hg.ipdom_lt b n (Option.filter_eq_some_iff.mp hn).1

theorem known_case {keys : List Int} {targets : List Nat} {default t : Nat} {merge : Option Nat}
    (hdefault : default ∈ g.succs b) (ht : t ∈ caseTargets g (keyBlocks g keys targets) default merge) :
    Known g d t := by
  rcases ((mem_caseTargets fun e => keyBlocks_lt).mp ht).1 with ⟨e, he, rfl⟩ | rfl
  · exact fun _ => keyBlocks_lt he
  · exact known_succ hdefault

theorem known_exit {t : TryRegion} {n : Nat} (hn : exitOfTry? g t = some n) : Known g d n := by
  have hexit := List.mem_mergeSort.mp (List.mem_of_mem_head? hn)
  obtain ⟨a, -, ha⟩ := List.mem_flatMap.mp (List.mem_filter.mp hexit).1
  exact known_succ ha

theorem known_inner {p : Progress} {l : Loop} {n : Nat} (hn : (loopShape g d p l).inner = some n) : Known g d n := by
  rcases loopShape_cases (g := g) (d := d) p l with ⟨_, _, _, h, htests⟩ | ⟨_, _, _, h, -⟩ | h <;> rw [h] at hn
  · cases hn
    exact known_succ htests.inner_mem
  · cases hn
  · cases hn

theorem known_out {p : Progress} {l : Loop} {n : Nat} (hn : (loopShape g d p l).exit = some n) : Known g d n := by
  rcases loopShape_cases (g := g) (d := d) p l with ⟨_, _, _, h, htests⟩ | ⟨_, _, _, h, htests, -⟩ | h <;> rw [h] at hn
  · cases hn
    exact known_succ htests.out_mem
  · cases hn
    exact known_succ htests.out_mem
  · obtain ⟨-, a, -, ha⟩ := endlessExit?_eq hn
    exact known_succ ha

/-- The clauses are those of the handlers, whatever is built for them. -/
theorem catchesOf_heads (g : Graph) (walk : Walk) (s : Scope) (seen : List Nat) (handlers : List HandlerBlock)
    (p : Progress) : Ends (catchesOf g walk s seen handlers) p fun catches _ =>
      catches.map (·.1) = clauses seen handlers := by
  induction handlers generalizing seen p with
  | nil => exact .pure rfl
  | cons handler rest ih =>
      unfold clauses
      refine .ite (fun hseen => ?_) fun hseen => ?_
      · rw [if_pos hseen]
        exact ih seen p
      · rw [if_neg hseen]
        refine .bind (.any fun r q => .bind ((ih (handler.block :: seen) q).mono fun catches q' h => .pure ?_))
        rw [List.map_cons, h]

end

section

variable {g : Graph} {d : Dominance} {I : List Frame → Progress → List Region → Progress → Prop} {walk : Walk} {b : Nat}
variable (hI : Buildable g d I) (hw : Builds g d I walk)

def Leading (g : Graph) (d : Dominance) (I : List Frame → Progress → List Region → Progress → Prop) (frames : List Frame)
    (p : Progress) (r : List Region × Option Nat) (q : Progress) : Prop :=
  I frames p r.1 q ∧ ∀ n ∈ r.2, Known g d n

include hI

theorem Leading.begun {frames : List Frame} {asBody : Bool} {p q : Progress} {r : List Region × Option Nat}
    (h : Leading g d I frames (p.place b) r q) : Leading g d I frames (begun asBody b p) r q := by
  cases asBody with
  | true => exact h
  | false => exact ⟨hI.append hI.place h.1, h.2⟩

theorem jumpTo_builds (frames : List Frame) (hb : Known g d b) (reason : String) (p : Progress) :
    Ends (jumpTo g b reason) p fun r q => I frames p [r] q := .modify (.pure (hI.goto hb))

include hw

theorem leave_builds (s : Scope) (fromTry : Bool) (hb : Known g d b) (p : Progress) :
    Ends (leave g d walk fromTry b) p fun items q => I s.frames p items q :=
  .get (.ite (fun _ => (hw .outermost false b p hb nofun).mono fun _ _ h => hI.inside h) fun _ =>
    .bind ((jumpTo_builds hI s.frames hb _ p).mono fun _ _ h => .pure h))

theorem arm_builds (s : Scope) (hb : Known g d b) (p : Progress) :
    Ends (walk s false b) p fun items q => I s.frames p [ofList items] q :=
  (hw s false b p hb nofun).mono fun _ _ h => hI.ofList h

theorem arms_builds (s : Scope) {fall target : Nat} (hfall : Known g d fall) (htarget : Known g d target)
    (merge : Option Nat) (p : Progress) : Ends (arms walk s b fall target merge) p fun r q => I s.frames p [r] q := by
  refine .ite (fun _ => ?_) fun _ => .ite (fun _ => ?_) fun _ => ?_
  · exact .bind ((arm_builds hI hw { s with follow := merge } hfall p).mono fun _ _ h => .pure (hI.branch h))
  · exact .bind ((arm_builds hI hw { s with follow := merge } htarget p).mono fun _ _ h => .pure (hI.branch h))
  · refine .bind ((arm_builds hI hw { s with follow := merge } hfall p).mono fun items q h => ?_)
    refine .bind ((arm_builds hI hw { s with follow := merge } htarget q).mono fun more r h' => ?_)
    exact .pure (hI.branchElse (hI.append h h'))

theorem branchAt_builds (s : Scope) (b : Nat) (p : Progress) :
    Ends (branchAt g d walk s b) p fun r q => Leading g d I s.frames p ([r.1], r.2) q := by
  unfold branchAt
  split
  · rename_i fall target hsuccs
    have hfall : Known g d fall := known_succ (b := b) (by simp [hsuccs])
    have htarget : Known g d target := known_succ (b := b) (by simp [hsuccs])
    split
    · rename_i m hmerge
      refine .bind ((arms_builds hI hw s hfall htarget _ p).mono fun _ _ h => .pure ⟨h, ?_⟩)
      rintro n ⟨⟩
      exact known_merge hmerge
    · refine .get (.ite (fun _ => ?_) fun _ => .ite (fun _ => ?_) fun _ => ?_)
      · refine .bind ((arm_builds hI hw { s with follow := none } htarget p).mono fun _ _ h => .pure ⟨hI.branch h, ?_⟩)
        rintro n ⟨⟩
        exact hfall
      · refine .bind ((arm_builds hI hw { s with follow := none } hfall p).mono fun _ _ h => .pure ⟨hI.branch h, ?_⟩)
        rintro n ⟨⟩
        exact htarget
      · exact .bind ((arms_builds hI hw s hfall htarget _ p).mono fun _ _ h => .pure ⟨h, by rintro n ⟨⟩⟩)
  · rename_i only hsuccs
    refine .pure ⟨hI.branch (hI.ofList hI.nil), ?_⟩
    rintro n ⟨⟩
    exact known_succ (b := b) (by simp [hsuccs])
  · exact .pure ⟨hI.block, by rintro n ⟨⟩⟩

theorem caseBody_builds (s : Scope) {exit : Option Nat} (hs : s.frames.head? = some (.switch exit))
    (merge next : Option Nat) {target : Nat} (htarget : Known g d target) (p : Progress) :
    Ends (caseBody g walk s merge next target) p fun r q => I s.frames p [r] q := by
  obtain ⟨follow, frames, allowed⟩ := s
  refine .ite (fun _ => .pure ?_) fun _ => .get (.ite (fun _ => jumpTo_builds hI _ htarget _ p) fun _ => ?_)
  · cases frames with
    | nil => cases hs
    | cons frame frames =>
        obtain rfl : frame = .switch exit := Option.some.inj hs
        exact hI.leaveSwitch
  · exact .bind ((arm_builds hI hw ⟨next, frames, allowed⟩ htarget p).mono fun _ _ h => .pure h)

theorem caseBodies_builds (s : Scope) {exit : Option Nat} (hs : s.frames.head? = some (.switch exit))
    (merge : Option Nat) {entries : List Nat} (hentries : ∀ t ∈ entries, Known g d t) (p : Progress) :
    Ends (caseBodies g walk s merge entries) p fun bodies q => I s.frames p bodies q := by
  induction entries generalizing p with
  | nil => exact .pure hI.nil
  | cons target rest ih =>
      rw [List.forall_mem_cons] at hentries
      refine .bind ((caseBody_builds hI hw s hs merge _ hentries.1 p).mono fun r q h => ?_)
      exact .bind ((ih hentries.2 q).mono fun bodies q' h' => .pure (hI.append h h'))

theorem switchAt_builds (s : Scope) (b : Nat) (keys : List Int) (targets : List Nat) (p : Progress) :
    Ends (switchAt g d walk s b keys targets) p fun r q => Leading g d I s.frames p ([r.1], r.2) q := by
  unfold switchAt
  cases hsuccs : g.succs b with
  | nil => exact .pure ⟨hI.block, nofun⟩
  | cons default rest =>
      have hdefault : default ∈ g.succs b := by simp [hsuccs]
      have hbodies (entries : List Nat) (hentries : ∀ t ∈ entries, Known g d t) :=
        (caseBodies_length g walk { s with frames := .switch (mergeOf d s b) :: s.frames } (mergeOf d s b) entries p).and
          (caseBodies_builds hI hw { s with frames := .switch (mergeOf d s b) :: s.frames } rfl (mergeOf d s b)
            hentries p)
      refine .bind ((hbodies _ fun t ht => known_case hdefault ht).mono fun bodies q h =>
        .pure ⟨hI.switch ?_ h.2, fun n hn => known_merge hn⟩)
      simpa using h.1.symm

theorem handlerBody_builds (s : Scope) (hb : Known g d b) (p : Progress) :
    Ends (handlerBody g walk s b) p fun r q => I s.frames p [r] q := by
  refine .get (.ite (fun _ => jumpTo_builds hI _ hb _ p) fun _ => ?_)
  exact .bind ((arm_builds hI hw s hb p).mono fun _ _ h => .pure h)

theorem catchesOf_builds (s : Scope) (seen : List Nat) {handlers : List HandlerBlock}
    (hhandlers : ∀ x ∈ handlers, Known g d x.block) (p : Progress) :
    Ends (catchesOf g walk s seen handlers) p fun catches q => I s.frames p (catches.map (·.2)) q := by
  induction handlers generalizing seen p with
  | nil => exact .pure hI.nil
  | cons handler rest ih =>
      rw [List.forall_mem_cons] at hhandlers
      refine .ite (fun _ => ih seen hhandlers.2 p) fun _ => ?_
      refine .bind ((handlerBody_builds hI hw s hhandlers.1 p).mono fun r q h => ?_)
      exact .bind ((ih (handler.block :: seen) hhandlers.2 q).mono fun catches q' h' => .pure (hI.append h h'))

theorem tryRegionAt_builds (s : Scope) {asBody : Bool} (n : Nat) {t : TryRegion} (ht : t ∈ g.tries)
    (hhead : t.covered.head? = some b) {p : Progress} (hfresh : asBody = true → b ∉ p.placed) :
    Ends (tryRegionAt g walk s asBody n t) p fun r q => Leading g d I s.frames (begun asBody b p) r q := by
  have hcovered : b ∈ t.covered := List.mem_of_mem_head? hhead
  have hhandlers : ∀ x ∈ t.handlers, Known g d x.block := fun x hx hg => hg.handler_lt ht hcovered hx
  have hguard : begun asBody b (p.guard n) = (begun asBody b p).guard n := by cases asBody <;> rfl
  unfold tryRegionAt
  refine .modify ?_
  cases hlist : t.covered with
  | nil => simp [hlist] at hcovered
  | cons start rest =>
      obtain rfl : start = b := by simpa [hlist] using hhead
      refine .bind ((hw _ asBody start (p.guard n) (fun hg => hg.covered_lt t ht start hcovered) hfresh).mono
        fun body q h => ?_)
      rw [hguard] at h
      refine .bind (((catchesOf_heads g walk _ [] t.handlers q).and
        (catchesOf_builds hI hw _ [] hhandlers q)).mono fun catches q' h' => .pure ⟨?_, fun m hm => ?_⟩)
      · exact hI.append hI.guard (hI.guarded ht h'.1 (hI.ofList h) h'.2)
      · exact known_exit (Option.filter_eq_some_iff.mp hm).1

theorem loopItems_builds (s : Scope) {header : Nat} (hheader : Known g d header) (latch : Option Nat) {inner : Option Nat}
    (hinner : ∀ n ∈ inner, Known g d n) {p : Progress} (hfresh : header ∉ p.placed) :
    Ends (loopItems walk s header latch inner) p fun items q => I s.frames (p.place header) items q := by
  unfold loopItems
  split
  · exact .modify (hw s false _ _ (hinner _ rfl) fun h => absurd h Bool.false_ne_true)
  · refine .ite (fun _ => .modify (.pure hI.block)) fun _ => ?_
    exact hw s true header p hheader fun _ => hfresh

theorem loopRegionAt_builds (s : Scope) {l : Loop} (hl : Known g d l.header) {p : Progress} (hfresh : l.header ∉ p.placed) :
    Ends (loopRegionAt g d walk s l) p fun r q => Leading g d I s.frames p r q := by
  refine .get (.bind ((loopItems_builds hI hw _ hl _ (fun n hn => known_inner hn) hfresh).mono fun _ _ h => .pure ?_))
  exact ⟨hI.loop hl hfresh h, fun n hn => known_out hn⟩

theorem plainAt_builds (s : Scope) (b : Nat) (p : Progress) :
    Ends (plainAt g d walk s b) p fun r q => Leading g d I s.frames (p.place b) r q := by
  have hnext : ∀ n ∈ (g.succs b).head?, Known g d n := fun n hn => known_succ (List.mem_of_mem_head? hn)
  refine .modify ?_
  split
  · exact .bind ((branchAt_builds hI hw s b _).mono fun _ _ h => .pure h)
  · exact .bind ((switchAt_builds hI hw s b _ _ _).mono fun _ _ h => .pure h)
  · exact .pure ⟨hI.block, nofun⟩
  · exact .pure ⟨hI.block, nofun⟩
  · exact .pure ⟨hI.block, hnext⟩

theorem tryOrPlainAt_builds (s : Scope) {asBody : Bool} {p : Progress} (hfresh : asBody = true → b ∉ p.placed) :
    Ends (tryOrPlainAt g d walk s asBody b) p fun r q => Leading g d I s.frames (begun asBody b p) r q := by
  refine .get ?_
  rcases tryAt?_cases g p b with ⟨n, t, hsome, ht, -, hhead⟩ | ⟨hnone, -⟩
  · rw [hsome]
    exact tryRegionAt_builds hI hw s n (List.mem_of_getElem? ht) hhead hfresh
  · rw [hnone]
    exact (plainAt_builds hI hw s b p).mono fun _ _ h => h.begun hI

theorem loopAt_builds (s : Scope) {l : Loop} (hl : Known g d l.header) {p : Progress} (hfresh : l.header ∉ p.placed) :
    Ends (loopAt g d walk s l) p fun r q => Leading g d I s.frames p r q := by
  refine .get ?_
  rcases tryAt?_cases g p l.header with ⟨n, t, hsome, ht, -, hhead⟩ | ⟨hnone, -⟩
  · rw [hsome]
    exact .ite (fun _ => loopRegionAt_builds hI hw s hl hfresh) fun _ =>
      tryRegionAt_builds hI hw s n (List.mem_of_getElem? ht) hhead nofun
  · rw [hnone]
    exact loopRegionAt_builds hI hw s hl hfresh

theorem regionAt_builds (s : Scope) (hb : Known g d b) (p : Progress) :
    Ends (regionAt g d walk s b) p fun r q => Leading g d I s.frames p r q := by
  unfold regionAt
  cases hjump : jump? b [] s.frames with
  | some jump => exact .modify (.pure ⟨hI.jump hjump, nofun⟩)
  | none =>
      refine .get (.ite (fun _ => ?_) fun _ => .ite (fun _ => ?_) fun _ => .ite (fun _ => ?_) fun hfresh => ?_)
      · exact .modify (.pure ⟨hI.append hI.place hI.block, nofun⟩)
      · exact .bind ((leave_builds hI hw s _ hb p).mono fun _ _ h => .pure ⟨h, nofun⟩)
      · exact .bind ((jumpTo_builds hI s.frames hb _ p).mono fun _ _ h => .pure ⟨h, nofun⟩)
      · cases hloop : d.loopAt? b with
        | some l =>
            obtain rfl : l.header = b := by simpa using List.find?_some hloop
            exact loopAt_builds hI hw s hb hfresh
        | none => exact tryOrPlainAt_builds hI hw s nofun

theorem advance_builds : Builds g d I (advance g d walk) := by
  intro s asBody b p hb hfresh
  have hafter (r : List Region × Option Nat) (q : Progress)
      (h : Leading g d I s.frames (begun asBody b p) r q) :
      Ends (goOn walk s r) q fun items q' => I s.frames (begun asBody b p) items q' := by
    obtain ⟨items, next⟩ := r
    cases next with
    | none => exact .pure h.1
    | some n => exact .bind ((hw s false n q (h.2 n rfl) nofun).mono fun more q' h' => .pure (hI.append h.1 h'))
  cases asBody with
  | true => exact .bind ((tryOrPlainAt_builds hI hw s hfresh).mono hafter)
  | false =>
      refine .ite (fun _ => .pure hI.nil) fun _ => ?_
      exact .bind ((regionAt_builds hI hw s hb p).mono hafter)

end

section

variable {g : Graph} {d : Dominance} {I : List Frame → Progress → List Region → Progress → Prop} (hI : Buildable g d I)
include hI

theorem iterate_builds {beyond : Walk} (hbeyond : Builds g d I beyond) (depth : Nat) :
    Builds g d I ((advance g d)^[depth] beyond) := by
  induction depth with
  | zero => exact hbeyond
  | succ depth ih =>
      rw [Function.iterate_succ_apply']
      exact advance_builds hI ih

section

variable (hwhole : ∀ b p, Known g d b → Ends (whole g d b) p fun items q => I [] p items q)
include hwhole

theorem rest_builds {bs : List Nat} (hbs : ∀ b ∈ bs, Known g d b) (p : Progress) :
    Ends (rest g d bs) p fun items q => I [] p items q := by
  induction bs generalizing p with
  | nil => exact .pure hI.nil
  | cons b bs ih =>
      rw [List.forall_mem_cons] at hbs
      refine .get (.ite (fun _ => ih hbs.2 p) fun _ => .modify (.bind ?_))
      refine (hwhole b (p.label b) hbs.1).mono fun items q h => ?_
      have hlabelled : I [] p items q := hI.append (hI.label hbs.1) h
      exact .bind ((ih hbs.2 q).mono fun more q' h' => .pure (hI.append hlabelled h'))

theorem everything_of_whole (p : Progress) : Ends (everything g d) p fun items q => I [] p items q := by
  refine .bind ((hwhole g.entry p fun hg => hg.entry_lt).mono fun items q h => ?_)
  refine .bind ((rest_builds hI hwhole (fun b hb _ => List.mem_range.mp hb) q).mono fun more q' h' => ?_)
  exact .pure (hI.append h h')

end

/-- What all ways of building keep holds of the regions of a whole graph, if it holds of a body that is left empty. -/
theorem everything_builds (hstop : ∀ {frames p b}, I frames (p.place b) [] p) (p : Progress) :
    Ends (everything g d) p fun items q => I [] p items q := by
  refine everything_of_whole hI (fun b p hb => ?_) p
  have hempty : Builds g d I fun _ _ _ => return [] := by
    intro s asBody b p _ _
    cases asBody with
    | true => exact .pure hstop
    | false => exact .pure hI.nil
  rw [whole, follow_eq_iterate]
  exact iterate_builds hI hempty (depthBound g) .outermost false b p hb nofun

/-- No body is left empty where control does not leave the graph, as the depth of a walk is never used up. -/
theorem everything_builds_ranged (hg : g.Ranged d) (p : Progress) :
    Ends (everything g d) p fun items q => I [] p items q := by
  refine everything_of_whole hI (fun b p hb => ?_) p
  -- Beyond the depth a walk may do anything, such as placing the block that it begins with.
  let beyond : Walk := fun _ asBody b => do
    modify (begun asBody b)
    return []
  have hbeyond : Builds g d I beyond := fun s asBody b p _ _ => .modify (.pure hI.nil)
  rw [Ends, (whole_settles hg (hb hg) p beyond).1]
  exact iterate_builds hI hbeyond (depthBound g) .outermost false b p hb fun h => absurd h Bool.false_ne_true

end

end Region

end JavaLift
