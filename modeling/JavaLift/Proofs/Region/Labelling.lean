import JavaLift.Proofs.Region.Jumps

namespace JavaLift

namespace Region

/-- What the labels of a tree depend on: its loops by their headers, the loops and the blocks that its jumps name, and the
blocks whose jumps are written out. -/
inductive Landmark where
  | loop (header : Nat)
  | leaves (header : Nat)
  | goes (target : Nat)
  | raw (b : Nat)
deriving DecidableEq

def mark? : Region → Option Landmark
  | .loop _ header .. => some (.loop header)
  | .brk (some header) | .cont (some header) => some (.leaves header)
  | .goto target => some (.goes target)
  | .raw b => some (.raw b)
  | _ => none

def Landmark.header? : Landmark → Option Nat
  | .loop header => some header
  | _ => none

def marks (r : Region) : List Landmark := r.nodes.filterMap mark?

def marksOf (items : List Region) : List Landmark := (nodesOf items).filterMap mark?

def headersOf (ms : List Landmark) : List Nat := ms.filterMap Landmark.header?

def own? : Region → Option Nat
  | .block b | .raw b => some b
  | .branch header .. | .loop _ header .. | .switch header _ => some header
  | _ => none

def Stands (r : Region) (b : Nat) : Prop := ∃ n ∈ r.nodes, n.own? = some b

section

variable {items more : List Region} {r : Region} {b : Nat}

@[simp] theorem marksOf_nil : marksOf [] = [] := rfl

@[simp] theorem marksOf_cons (r : Region) (items : List Region) : marksOf (r :: items) = marks r ++ marksOf items :=
  List.filterMap_append

@[simp] theorem marksOf_append (items more : List Region) : marksOf (items ++ more) = marksOf items ++ marksOf more := by
  rw [marksOf, nodesOf_append, List.filterMap_append]
  rfl

@[simp] theorem marks_seq (items : List Region) : marks (.seq items) = marksOf items := rfl

@[simp] theorem marks_block (b : Nat) : marks (.block b) = [] := rfl

@[simp] theorem marks_branch (b : Nat) (negated : Bool) (thenPart : Region) :
    marks (.branch b negated thenPart none) = marks thenPart := rfl

@[simp] theorem marks_branchElse (b : Nat) (negated : Bool) (thenPart elsePart : Region) :
    marks (.branch b negated thenPart (some elsePart)) = marks thenPart ++ marks elsePart :=
  List.filterMap_append

@[simp] theorem marks_loop (kind : LoopKind) (header : Nat) (cond : Option Nat) (negated : Bool) (body : Region) :
    marks (.loop kind header cond negated body) = .loop header :: marks body := rfl

theorem nodesOfCases_eq (cases : List (CaseHead × Region)) : nodesOfCases cases = nodesOf (cases.map (·.2)) := by
  induction cases with
  | nil => rfl
  | cons c cases ih => simp [nodesOf, nodesOfCases, ih]

@[simp] theorem marks_switch (b : Nat) (cases : List (CaseHead × Region)) :
    marks (.switch b cases) = marksOf (cases.map (·.2)) := by
  rw [marksOf, ← nodesOfCases_eq]
  rfl

@[simp] theorem marks_guarded (body : Region) (catches : List (CatchHead × Region)) :
    marks (.guarded body catches) = marks body ++ marksOf (catches.map (·.2)) := by
  rw [marksOf, ← nodesOfCatches_eq]
  exact List.filterMap_append

@[simp] theorem marks_goto (target : Nat) : marks (.goto target) = [.goes target] := rfl

@[simp] theorem marks_brk (label : Option Nat) : marks (.brk label) = label.toList.map .leaves := by
  cases label <;> rfl

@[simp] theorem marks_cont (label : Option Nat) : marks (.cont label) = label.toList.map .leaves := by
  cases label <;> rfl

@[simp] theorem marks_raw (b : Nat) : marks (.raw b) = [.raw b] := rfl

@[simp] theorem marks_ofList (items : List Region) : marks (ofList items) = marksOf items := by
  unfold ofList
  split
  · simp
  · rfl

@[simp] theorem marksOf_withoutLastContinue (items : List Region) : marksOf (withoutLastContinue items) = marksOf items := by
  rcases withoutLastContinue_cases items with hsame | hsplit
  · rw [hsame]
  · conv_rhs => rw [hsplit]
    simp

theorem marksOf_raw (bs : List Nat) : marksOf (bs.map .raw) = bs.map .raw := by
  induction bs with
  | nil => rfl
  | cons b bs ih =>
      rw [List.map_cons, marksOf_cons, ih]
      rfl

theorem marksOf_zip {heads : List CaseHead} (h : heads.length = items.length) :
    marksOf ((heads.zip items).map (·.2)) = marksOf items := by
  rw [List.map_snd_zip h.ge]

theorem mem_marks_iff {m : Landmark} {n : Region} (hn : n.mark? = some m) (honly : ∀ x : Region, x.mark? = some m → x = n) :
    m ∈ marks r ↔ n ∈ r.nodes := by
  rw [marks, List.mem_filterMap]
  constructor
  · rintro ⟨x, hx, hmark⟩
    exact honly x hmark ▸ hx
  · exact fun h => ⟨n, h, hn⟩

theorem goes_mem_marks {t : Nat} : .goes t ∈ marks r ↔ .goto t ∈ r.nodes := by
  refine mem_marks_iff rfl fun x hx => ?_
  unfold mark? at hx
  split at hx <;> cases hx
  rfl

theorem raw_mem_marks : .raw b ∈ marks r ↔ .raw b ∈ r.nodes := by
  refine mem_marks_iff rfl fun x hx => ?_
  unfold mark? at hx
  split at hx <;> cases hx
  rfl

theorem stands_of_loop {header : Nat} (h : .loop header ∈ marks r) : r.Stands header := by
  obtain ⟨n, hn, hmark⟩ := List.mem_filterMap.mp h
  refine ⟨n, hn, ?_⟩
  unfold mark? at hmark
  split at hmark <;> cases hmark
  rfl

end

section

variable {b : Nat} {n : Region}

theorem or_mem_append {cs cs' : List Nat} {ms ms' : List Landmark} {m : Landmark}
    (h : (b ∈ cs ∨ m ∈ ms) ∨ b ∈ cs' ∨ m ∈ ms') : b ∈ cs ++ cs' ∨ m ∈ ms ++ ms' := by
  rwa [List.mem_append, List.mem_append, or_or_or_comm]

mutual

/-- A block that stands in a tree is carried, or it is the header of a loop. -/
theorem carried_or_loop : (r : Region) → n ∈ nodes r → n.own? = some b → b ∈ carriers r ∨ .loop b ∈ marks r
  | .seq items, hn, hb => by
      rcases List.mem_cons.mp hn with rfl | hn
      · cases hb
      · exact carriedOf_or_loop items hn hb
  | .branch header _ thenPart none, hn, hb => by
      rcases List.mem_cons.mp hn with rfl | hn
      · cases hb
        exact .inl List.mem_cons_self
      · exact (carried_or_loop thenPart hn hb).imp_left (List.mem_cons_of_mem _)
  | .branch header _ thenPart (some elsePart), hn, hb => by
      rw [marks_branchElse]
      rcases List.mem_cons.mp hn with rfl | hn
      · cases hb
        exact .inl List.mem_cons_self
      · refine (or_mem_append ?_).imp_left (List.mem_cons_of_mem _)
        exact (List.mem_append.mp hn).imp (carried_or_loop thenPart · hb) (carried_or_loop elsePart · hb)
  | .loop kind header _ _ body, hn, hb => by
      rw [marks_loop]
      rcases List.mem_cons.mp hn with rfl | hn
      · cases hb
        exact .inr List.mem_cons_self
      · refine (carried_or_loop body hn hb).imp (fun h => ?_) (List.mem_cons_of_mem _)
        cases kind with
        | whileDo => exact List.mem_cons_of_mem _ h
        | doWhile | endless => exact h
  | .switch header cases, hn, hb => by
      rw [marks_switch]
      rcases List.mem_cons.mp hn with rfl | hn
      · cases hb
        exact .inl List.mem_cons_self
      · exact (carriedOfCases_or_loop cases hn hb).imp_left (List.mem_cons_of_mem _)
  | .guarded body catches, hn, hb => by
      rw [marks_guarded]
      rcases List.mem_cons.mp hn with rfl | hn
      · cases hb
      · exact or_mem_append ((List.mem_append.mp hn).imp (carried_or_loop body · hb) (carriedOfCatches_or_loop catches · hb))
  | .block _, hn, hb | .raw _, hn, hb => by
      cases List.mem_singleton.mp hn
      cases hb
      exact .inl List.mem_cons_self
  | .brk _, hn, hb | .cont _, hn, hb | .goto _, hn, hb => by
      cases List.mem_singleton.mp hn
      cases hb

theorem carriedOf_or_loop : (items : List Region) → n ∈ nodesOf items → n.own? = some b →
    b ∈ carriersOf items ∨ .loop b ∈ marksOf items
  | r :: rest, hn, hb => by
      rw [marksOf_cons]
      exact or_mem_append ((List.mem_append.mp hn).imp (carried_or_loop r · hb) (carriedOf_or_loop rest · hb))

theorem carriedOfCases_or_loop : (cases : List (CaseHead × Region)) → n ∈ nodesOfCases cases → n.own? = some b →
    b ∈ carriersOfCases cases ∨ .loop b ∈ marksOf (cases.map (·.2))
  | (_, r) :: rest, hn, hb => by
      rw [List.map_cons, marksOf_cons]
      exact or_mem_append ((List.mem_append.mp hn).imp (carried_or_loop r · hb) (carriedOfCases_or_loop rest · hb))

theorem carriedOfCatches_or_loop : (catches : List (CatchHead × Region)) → n ∈ nodesOfCatches catches →
    n.own? = some b → b ∈ carriersOfCatches catches ∨ .loop b ∈ marksOf (catches.map (·.2))
  | (_, r) :: rest, hn, hb => by
      rw [List.map_cons, marksOf_cons]
      exact or_mem_append ((List.mem_append.mp hn).imp (carried_or_loop r · hb) (carriedOfCatches_or_loop rest · hb))

end

end

theorem append_subset_own {bs bs' : List Nat} {ns ns' : List Region} (h : bs ⊆ ns.filterMap own?)
    (h' : bs' ⊆ ns'.filterMap own?) : bs ++ bs' ⊆ (ns ++ ns').filterMap own? := by
  rw [List.filterMap_append]
  exact List.append_subset.mpr ⟨List.subset_append_of_subset_left _ h, List.subset_append_of_subset_right _ h'⟩

mutual

theorem carriers_subset_own : (r : Region) → carriers r ⊆ (nodes r).filterMap own?
  | .seq items => carriersOf_subset_own items
  | .block _ | .raw _ => List.Subset.refl _
  | .branch _ _ thenPart none => List.cons_subset_cons _ (carriers_subset_own thenPart)
  | .branch _ _ thenPart (some elsePart) =>
      List.cons_subset_cons _ (append_subset_own (carriers_subset_own thenPart) (carriers_subset_own elsePart))
  | .loop .whileDo _ _ _ body => List.cons_subset_cons _ (carriers_subset_own body)
  | .loop .doWhile _ _ _ body | .loop .endless _ _ _ body => List.subset_cons_of_subset _ (carriers_subset_own body)
  | .switch _ cases => List.cons_subset_cons _ (carriersOfCases_subset_own cases)
  | .guarded body catches => append_subset_own (carriers_subset_own body) (carriersOfCatches_subset_own catches)
  | .brk _ | .cont _ | .goto _ => List.nil_subset _

theorem carriersOf_subset_own : (items : List Region) → carriersOf items ⊆ (nodesOf items).filterMap own?
  | [] => List.nil_subset _
  | r :: rest => append_subset_own (carriers_subset_own r) (carriersOf_subset_own rest)

theorem carriersOfCases_subset_own : (cases : List (CaseHead × Region)) →
    carriersOfCases cases ⊆ (nodesOfCases cases).filterMap own?
  | [] => List.nil_subset _
  | (_, r) :: rest => append_subset_own (carriers_subset_own r) (carriersOfCases_subset_own rest)

theorem carriersOfCatches_subset_own : (catches : List (CatchHead × Region)) →
    carriersOfCatches catches ⊆ (nodesOfCatches catches).filterMap own?
  | [] => List.nil_subset _
  | (_, r) :: rest => append_subset_own (carriers_subset_own r) (carriersOfCatches_subset_own rest)

end

/-- The node is in scope inside of loops with the marks, and of what is around those. -/
def ScopedIn (g : Graph) (l : Labels) (around : List Construct) (ms : List Landmark) (n : Region) : Prop :=
  ∃ inner, (∀ h, .loop h ∈ inner → .loop h ∈ ms) ∧ Scoped g l (inner ++ around) n

section

variable {g : Graph} {l : Labels} {around : List Construct} {ms ms' : List Landmark} {n : Region}

theorem ScopedIn.here (h : Scoped g l around n) : ScopedIn g l around ms n := ⟨[], nofun, h⟩

theorem ScopedIn.mono (h : ScopedIn g l around ms n) (hsub : ms ⊆ ms') : ScopedIn g l around ms' n := by
  obtain ⟨inner, hinner, hscoped⟩ := h
  exact ⟨inner, fun x hx => hsub (hinner x hx), hscoped⟩

theorem ScopedIn.left (h : ScopedIn g l around ms n) : ScopedIn g l around (ms ++ ms') n :=
  h.mono (List.subset_append_left _ _)

theorem ScopedIn.right (h : ScopedIn g l around ms' n) : ScopedIn g l around (ms ++ ms') n :=
  h.mono (List.subset_append_right _ _)

theorem ScopedIn.loop {header : Nat} (h : ScopedIn g l (.loop header :: around) ms n) :
    ScopedIn g l around (.loop header :: ms) n := by
  obtain ⟨inner, hinner, hscoped⟩ := h
  refine ⟨inner ++ [.loop header], fun x hx => ?_, by simpa using hscoped⟩
  rcases List.mem_append.mp hx with hx | hx
  · exact List.mem_cons_of_mem _ (hinner x hx)
  · cases List.mem_singleton.mp hx
    exact List.mem_cons_self

theorem ScopedIn.switch (h : ScopedIn g l (.switch :: around) ms n) : ScopedIn g l around ms n := by
  obtain ⟨inner, hinner, hscoped⟩ := h
  refine ⟨inner ++ [.switch], fun x hx => ?_, by simpa using hscoped⟩
  exact hinner x ((List.mem_append.mp hx).resolve_right fun hx => by cases List.mem_singleton.mp hx)

mutual

/-- Each node of a tree stands in loops of the tree, and in what is around the tree. -/
theorem Scoped.of_mem : (r : Region) → ∀ around : List Construct, Scoped g l around r → n ∈ nodes r →
    ScopedIn g l around (marks r) n
  | .seq items, around, h, hn => by
      rcases List.mem_cons.mp hn with rfl | hn
      · exact .here h
      · exact ScopedAll.of_mem items around h hn
  | .branch _ _ thenPart none, around, h, hn => by
      rcases List.mem_cons.mp hn with rfl | hn
      · exact .here h
      · exact Scoped.of_mem thenPart around h hn
  | .branch _ _ thenPart (some elsePart), around, h, hn => by
      rcases List.mem_cons.mp hn with rfl | hn
      · exact .here h
      rw [marks_branchElse]
      rcases List.mem_append.mp hn with hn | hn
      · exact (Scoped.of_mem thenPart around h.1 hn).left
      · exact (Scoped.of_mem elsePart around h.2 hn).right
  | .loop _ header _ _ body, around, h, hn => by
      rcases List.mem_cons.mp hn with rfl | hn
      · exact .here h
      · exact (Scoped.of_mem body (.loop header :: around) h hn).loop
  | .switch _ cases, around, h, hn => by
      rcases List.mem_cons.mp hn with rfl | hn
      · exact .here h
      rw [marks_switch]
      exact (ScopedCases.of_mem cases (.switch :: around) h hn).switch
  | .guarded body catches, around, h, hn => by
      rcases List.mem_cons.mp hn with rfl | hn
      · exact .here h
      rw [marks_guarded]
      rcases List.mem_append.mp hn with hn | hn
      · exact (Scoped.of_mem body around h.1 hn).left
      · exact (ScopedCatches.of_mem catches around h.2 hn).right
  | .block _, _, h, hn | .brk _, _, h, hn | .cont _, _, h, hn | .goto _, _, h, hn | .raw _, _, h, hn => by
      cases List.mem_singleton.mp hn
      exact .here h

theorem ScopedAll.of_mem : (items : List Region) → ∀ around : List Construct, ScopedAll g l around items →
    n ∈ nodesOf items → ScopedIn g l around (marksOf items) n
  | r :: rest, around, h, hn => by
      rw [marksOf_cons]
      rcases List.mem_append.mp hn with hn | hn
      · exact (Scoped.of_mem r around h.1 hn).left
      · exact (ScopedAll.of_mem rest around h.2 hn).right

theorem ScopedCases.of_mem : (cases : List (CaseHead × Region)) → ∀ around : List Construct,
    ScopedCases g l around cases → n ∈ nodesOfCases cases → ScopedIn g l around (marksOf (cases.map (·.2))) n
  | (_, r) :: rest, around, h, hn => by
      rw [List.map_cons, marksOf_cons]
      rcases List.mem_append.mp hn with hn | hn
      · exact (Scoped.of_mem r around h.1 hn).left
      · exact (ScopedCases.of_mem rest around h.2 hn).right

theorem ScopedCatches.of_mem : (catches : List (CatchHead × Region)) → ∀ around : List Construct,
    ScopedCatches g l around catches → n ∈ nodesOfCatches catches →
      ScopedIn g l around (marksOf (catches.map (·.2))) n
  | (_, r) :: rest, around, h, hn => by
      rw [List.map_cons, marksOf_cons]
      rcases List.mem_append.mp hn with hn | hn
      · exact (Scoped.of_mem r around h.1 hn).left
      · exact (ScopedCatches.of_mem rest around h.2 hn).right

end

end

/-- What a walk has built: loops whose headers it has placed, each once, and jumps to blocks of the graph. A loop gets a
label only from a jump that names it. -/
structure Naming (g : Graph) (d : Dominance) (p : Progress) (ms : List Landmark) (q : Progress) : Prop where
  placed : ∀ b ∈ p.placed, b ∈ q.placed
  headers : (headersOf ms).Nodup
  fresh : ∀ h, .loop h ∈ ms → h ∉ p.placed
  opened : ∀ h, .loop h ∈ ms → h ∈ q.placed
  known : ∀ b, .loop b ∈ ms ∨ .goes b ∈ ms → Known g d b
  loops : ∀ h ∈ q.loopLabels, h ∈ p.loopLabels ∨ .leaves h ∈ ms
  worded : ∀ b, .raw b ∉ ms

namespace Naming

variable {g : Graph} {d : Dominance} {p q : Progress} {ms ms' : List Landmark} {frames : List Frame} {r : Region}
    {b header : Nat}

theorem mem_headersOf : header ∈ headersOf ms ↔ .loop header ∈ ms := by
  constructor
  · intro h
    obtain ⟨m, hm, hheader⟩ := List.mem_filterMap.mp h
    cases m <;> cases hheader
    exact hm
  · exact fun h => List.mem_filterMap.mpr ⟨_, h, rfl⟩

theorem silent (hplaced : ∀ b ∈ p.placed, b ∈ q.placed) (hloops : q.loopLabels = p.loopLabels) : Naming g d p [] q :=
  ⟨hplaced, .nil, nofun, nofun, nofun, fun _ hh => .inl (hloops ▸ hh), nofun⟩

theorem place : Naming g d p [] (p.place b) :=
  silent (fun c hc => by
    change (p.placed.insert b).contains c = true
    rw [NatSet.contains_insert, Bool.or_eq_true]
    exact .inl hc) rfl

theorem append {r : Progress} (h : Naming g d p ms q) (h' : Naming g d q ms' r) : Naming g d p (ms ++ ms') r where
  placed b hb := h'.placed b (h.placed b hb)
  headers := by
    rw [headersOf, List.filterMap_append]
    refine List.nodup_append.mpr ⟨h.headers, h'.headers, ?_⟩
    rintro a ha _ hb rfl
    exact h'.fresh a (mem_headersOf.mp hb) (h.opened a (mem_headersOf.mp ha))
  fresh x hx := by
    rcases List.mem_append.mp hx with hx | hx
    · exact h.fresh x hx
    · exact fun hp => h'.fresh x hx (h.placed x hp)
  opened x hx := by
    rcases List.mem_append.mp hx with hx | hx
    · exact h'.placed x (h.opened x hx)
    · exact h'.opened x hx
  known b hb := by
    rw [List.mem_append, List.mem_append, or_or_or_comm] at hb
    exact hb.elim (h.known b) (h'.known b)
  loops x hx := by
    rw [List.mem_append]
    rcases h'.loops x hx with hx | hx
    · exact (h.loops x hx).imp_right .inl
    · exact .inr (.inr hx)
  worded b hb := (List.mem_append.mp hb).elim (h.worded b) (h'.worded b)

theorem goto {message : String} (hb : Known g d b) : Naming g d p [.goes b] ((p.remark message).label b) :=
  ⟨fun _ hb => hb, .nil, by simp, by simp, by simpa using hb, fun _ hh => .inl hh, by simp⟩

theorem jump (h : Frame.jump? b [] frames = some r) : Naming g d p (marks r) (p.labelLoop r) := by
  have hlabelled (r : Region) (header : Nat) (hr : r = .brk (some header) ∨ r = .cont (some header)) :
      Naming g d p (marks r) (p.labelLoop r) := by
    have hloops (x : Nat) (hx : x ∈ p.loopLabels.insert header) : x ∈ p.loopLabels ∨ x = header := by
      change (p.loopLabels.insert header).contains x = true at hx
      rw [NatSet.contains_insert, Bool.or_eq_true, beq_iff_eq] at hx
      exact hx.imp_right Eq.symm
    rcases hr with rfl | rfl
    all_goals
      refine ⟨fun _ hb => hb, .nil, by simp, by simp, by simp, fun x hx => (hloops x hx).imp_right ?_, by simp⟩
      rintro rfl
      exact List.mem_cons_self
  obtain ⟨inner, f, outer, -, hworded⟩ := Frame.worded_of_jump? h
  cases hworded with
  | again =>
      split
      · exact hlabelled _ _ (.inr rfl)
      · exact silent (fun _ hb => hb) rfl
  | leaveLoop =>
      split
      · exact silent (fun _ hb => hb) rfl
      · exact hlabelled _ _ (.inl rfl)
  | leaveSwitch => exact silent (fun _ hb => hb) rfl

/-- Inside a loop its header counts as placed, so no loop there has the same one. -/
theorem loop (h : Naming g d (p.place header) ms q) (hknown : Known g d header) (hfresh : header ∉ p.placed) :
    Naming g d p (.loop header :: ms) q := by
  have hplace : header ∈ (p.place header).placed := by
    change (p.placed.insert header).contains header = true
    simp [NatSet.contains_insert]
  have hgrow := (place : Naming g d p [] (p.place header)).placed
  refine ⟨fun b hb => h.placed b (hgrow b hb), ?_, ?_, ?_, ?_, fun x hx => ?_, ?_⟩
  · exact List.nodup_cons.mpr ⟨fun hmem => h.fresh header (mem_headersOf.mp hmem) hplace, h.headers⟩
  · intro x hx
    rcases List.mem_cons.mp hx with hx | hx
    · cases hx
      exact hfresh
    · exact fun hp => h.fresh x hx (hgrow x hp)
  · intro x hx
    rcases List.mem_cons.mp hx with hx | hx
    · cases hx
      exact h.placed _ hplace
    · exact h.opened x hx
  · intro b hb
    simp only [List.mem_cons, Landmark.loop.injEq, reduceCtorEq, false_or] at hb
    rcases hb with (rfl | hb) | hb
    · exact hknown
    · exact h.known b (.inl hb)
    · exact h.known b (.inr hb)
  · exact (h.loops x hx).imp_right (List.mem_cons_of_mem _)
  · simpa using h.worded

theorem buildable (g : Graph) (d : Dominance) : Buildable g d fun _ p items q => Naming g d p (marksOf items) q where
  nil := silent (fun _ hb => hb) rfl
  append h h' := by
    rw [marksOf_append]
    exact h.append h'
  place := place
  guard := silent (fun _ hb => hb) rfl
  label _ := silent (fun _ hb => hb) rfl
  inside h := h
  ofList h := by simpa using h
  block := silent (fun _ hb => hb) rfl
  jump h := by simpa using jump h
  goto hb := by simpa using goto hb
  leaveSwitch := silent (fun _ hb => hb) rfl
  branch h := by simpa using h
  branchElse h := by simpa using h
  loop hknown hfresh h := by simpa using h.loop hknown hfresh
  switch hlength h := by simpa [marksOf_zip hlength] using h
  guarded _ _ h h' := by simpa using h.append h'

end Naming

end Region

open Region

namespace Structured

/-- What the jumps of a tree name has a label: a loop that stands in the tree once, or a block of the graph. Only loops
that a jump names have labels. -/
structure Named (g : Graph) (t : Structured) : Prop where
  stands : ∀ b, t.root.Stands b ↔ b < g.size
  headers : (headersOf t.root.marks).Nodup
  loop_of_leaves : ∀ h, .leaves h ∈ t.root.marks → h ∈ t.loopLabels ∧ .loop h ∈ t.root.marks
  leaves_of_label : ∀ h ∈ t.loopLabels, .leaves h ∈ t.root.marks
  goes : ∀ b, .goes b ∈ t.root.marks → b ∈ t.labels ∧ b < g.size
  raw : ∀ b, .raw b ∈ t.root.marks → ∀ n ∈ g.exits b, n ∈ t.labels
  plain : ∀ b, .raw b ∈ t.root.marks → ∃ bs : List Nat, t.root = .seq (bs.map .raw)

theorem marks_ofBlocks (g : Graph) :
    (ofBlocks g).root.marks = ((List.range g.size).mergeSort fun a b => (g.block a).start ≤ (g.block b).start).map .raw :=
  marksOf_raw _

theorem named_ofBlocks {g : Graph} (hstands : ∀ b, (ofBlocks g).root.Stands b ↔ b < g.size) : Named g (ofBlocks g) := by
  have hmem {m : Landmark} (hm : m ∈ (ofBlocks g).root.marks) : ∃ b < g.size, m = .raw b := by
    rw [marks_ofBlocks] at hm
    obtain ⟨b, hb, rfl⟩ := List.mem_map.mp hm
    exact ⟨b, List.mem_range.mp (List.mem_mergeSort.mp hb), rfl⟩
  have hnone : headersOf (ofBlocks g).root.marks = [] := by
    refine List.filterMap_eq_nil_iff.mpr fun m hm => ?_
    obtain ⟨b, -, rfl⟩ := hmem hm
    rfl
  refine ⟨hstands, by rw [hnone]; exact .nil, fun h hh => ?_, fun h hh => ?_, fun b hb => ?_, fun b hb n hn => ?_,
    fun _ _ => ⟨_, rfl⟩⟩
  · obtain ⟨_, -, hraw⟩ := hmem hh
    cases hraw
  · have hempty : NatSet.empty.contains h = true := hh
    simp at hempty
  · obtain ⟨_, -, hraw⟩ := hmem hb
    cases hraw
  · obtain ⟨_, hblt, hraw⟩ := hmem hb
    cases hraw
    exact NatSet.contains_ofList.mpr (List.mem_flatMap.mpr ⟨b, List.mem_range.mpr hblt, hn⟩)

/-- What the jumps of the tree of a graph name. -/
theorem named_of {g : Graph} (hg : g.Ranged (Dominance.of g)) : Named g (of g) := by
  have hstands (h : ∀ b, .loop b ∈ (of g).root.marks → b < g.size) (b : Nat) : (of g).root.Stands b ↔ b < g.size := by
    constructor
    · rintro ⟨n, hn, hown⟩
      exact (carried_or_loop _ hn hown).elim (mem_carriers_of hg b).mp (h b)
    · exact fun hb => List.mem_filterMap.mp (carriers_subset_own _ ((mem_carriers_of hg b).mpr hb))
  have hscoped {n : Region} (hn : n ∈ (of g).root.nodes) := (scoped_of g).of_mem _ _ hn
  rcases of_cases g with hof | ⟨items, p, hrun, hof⟩
  · rw [hof] at hstands ⊢
    refine named_ofBlocks (hstands fun b hloop => ?_)
    rw [marks_ofBlocks] at hloop
    obtain ⟨_, -, hraw⟩ := List.mem_map.mp hloop
    cases hraw
  · have hnaming := everything_builds_ranged (Naming.buildable g (Dominance.of g)) hg .start
    rw [Ends, show everything g (Dominance.of g) .start = (items, p) from hrun] at hnaming
    have hmarks : (of g).root.marks = marksOf items := by rw [hof, marks_ofList]
    rw [← hmarks] at hnaming
    refine ⟨hstands fun b hloop => hnaming.known b (.inl hloop) hg, hnaming.headers, fun h hh => ?_, fun h hh => ?_,
      fun b hb => ?_, fun b hb => absurd hb (hnaming.worded b), fun b hb => absurd hb (hnaming.worded b)⟩
    · obtain ⟨n, hn, hmark⟩ := List.mem_filterMap.mp hh
      obtain ⟨inner, hinner, hin⟩ := hscoped hn
      rw [List.append_nil] at hin
      unfold mark? at hmark
      split at hmark <;> cases hmark
      all_goals exact ⟨hin.2, hinner h hin.1⟩
    · rw [hof] at hh
      refine (hnaming.loops h hh).resolve_left fun hstart => ?_
      have hempty : NatSet.empty.contains h = true := hstart
      simp at hempty
    · obtain ⟨inner, -, hin⟩ := hscoped (goes_mem_marks.mp hb)
      exact ⟨hin, hnaming.known b (.inr hb) hg⟩

end Structured

end JavaLift
