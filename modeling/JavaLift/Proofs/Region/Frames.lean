import JavaLift.Proofs.Flow.Reach
import JavaLift.Proofs.Region.Fitting

namespace JavaLift

open Around

/-- What the structure of a graph without exceptions relies on: where control goes on after a block. -/
structure Graph.Formed (g : Graph) : Prop where
  tries : g.tries = []
  quiet : ∀ b, g.handlers b = []
  entry : g.entry < g.size
  reached : ∀ b < g.size, g.digraph.Reaches (fun _ => false) [g.entry] b
  succs_lt : ∀ b < g.size, ∀ n ∈ g.succs b, n < g.size
  onward : ∀ b < g.size, ¬ (g.block b).isExit = true → g.succs b ≠ []
  branch : ∀ b < g.size, (g.block b).endsInIf = true → (g.succs b).length ≤ 2
  table : ∀ b < g.size, ∀ n, ∀ e ∈ g.entryOf b n, e.1 ∈ g.succs b

theorem Loop.decidesAt.testsLast {g : Graph} {l : Loop} {latch : Nat} (h : l.decidesAt g latch) :
    ∃ negated out, l.TestsLast g latch negated out := by
  obtain ⟨-, shape, hshape, hcond⟩ := h
  obtain ⟨latch', negated, out, rfl, hlast⟩ := Region.doWhileShape?_eq hshape
  obtain rfl : latch' = latch := by simpa using hcond
  exact ⟨negated, out, hlast⟩

/-- What the structure of a graph relies on about its loops: they are part of the graph, edges back to a header are
those from its latches, and of two loops one is part of the other. -/
structure Dominance.Loops (g : Graph) (d : Dominance) : Prop where
  body_lt : ∀ l ∈ d.loops, ∀ b ∈ l.body, b < g.size
  header_mem : ∀ l ∈ d.loops, l.header ∈ l.body
  latch_mem : ∀ l ∈ d.loops, ∀ b ∈ l.latches, b ∈ l.body
  back : ∀ l ∈ d.loops, ∀ b ∈ l.body, l.header ∈ g.succs b → b ∈ l.latches
  nested : ∀ l ∈ d.loops, ∀ m ∈ d.loops, m.header ∈ l.body → m.header ≠ l.header → m.body ⊆ l.body
  latch_outside : ∀ l ∈ d.loops, ∀ m ∈ d.loops, m.header ∈ l.body → m.header ≠ l.header →
    ∀ latch, l.decidesAt g latch → m.header ≠ latch → latch ∉ m.body
  ipdom_lt : ∀ b, ∀ m ∈ d.ipdomOf b, m < g.size

def Dominance.latches (g : Graph) (d : Dominance) : List Nat :=
  d.loops.filterMap fun l => if (Region.whileShape? g l).isSome then none else (Region.doWhileShape? g l).bind (·.cond)

namespace Frame

/-- What a construct that is being built is for the regions in it. -/
def around : Frame → Around
  | .loop header exit _ latch => ⟨some header, exit, if latch.isSome then none else some header⟩
  | .switch exit => ⟨none, exit, none⟩

def Inside (frames : List Frame) (b : Nat) : Prop :=
  ∀ header exit body latch, .loop header exit body latch ∈ frames → b ∈ body ∧ latch ≠ some b

/-- The block is not where one of the loops that decide after their body begins. -/
def Clear (frames : List Frame) (b : Nat) : Prop :=
  ∀ header exit body latch, .loop header exit body (some latch) ∈ frames → b ≠ header

/-- The constructs are switches and loops of the graph, each inside the next. -/
def Nested (g : Graph) (d : Dominance) : List Frame → Prop
  | [] => True
  | .switch _ :: frames => Nested g d frames
  | .loop header _ body latch :: frames =>
    Nested g d frames ∧ Inside frames header ∧ (∀ exit body latch, .loop header exit body latch ∉ frames) ∧
      ∃ l ∈ d.loops, l.header = header ∧ l.body = body ∧ ∀ b ∈ latch, l.decidesAt g b

variable {g : Graph} {d : Dominance}

theorem decidesAt_latches {l : Loop} {b : Nat} (hl : l ∈ d.loops) (h : l.decidesAt g b) : b ∈ d.latches g := by
  obtain ⟨hwhile, shape, hshape, hcond⟩ := h
  refine List.mem_filterMap.mpr ⟨l, hl, ?_⟩
  simp [hwhile, show Region.doWhileShape? g l = some shape from hshape, hcond]

theorem Nested.loop {frames : List Frame} (h : Nested g d frames) {header : Nat} {exit : Option Nat} {body : List Nat}
    {latch : Option Nat} (hf : .loop header exit body latch ∈ frames) :
    ∃ l ∈ d.loops, l.header = header ∧ l.body = body ∧ ∀ b ∈ latch, l.decidesAt g b := by
  induction frames with
  | nil => cases hf
  | cons frame frames ih =>
      cases frame with
      | switch exit =>
          rcases List.mem_cons.mp hf with hf | hf
          · cases hf
          · exact ih h hf
      | loop header' exit' body' latch' =>
          rcases List.mem_cons.mp hf with hf | hf
          · cases hf
            exact h.2.2.2
          · exact ih h.1 hf

theorem inside_of_loop (hd : d.Loops g) {frames : List Frame} (h : Nested g d frames) {l : Loop} (hl : l ∈ d.loops)
    (hin : Inside frames l.header) (hne : ∀ exit body latch, .loop l.header exit body latch ∉ frames) {b : Nat}
    (hb : b ∈ l.body) : Inside frames b := by
  intro header exit body latch hf
  obtain ⟨m, hm, rfl, rfl, hlatch⟩ := h.loop hf
  obtain ⟨hmem, hlatch'⟩ := hin _ _ _ _ hf
  have hheader : l.header ≠ m.header := fun he => hne _ _ _ (he ▸ hf)
  refine ⟨hd.nested m hm l hl hmem hheader hb, ?_⟩
  rintro rfl
  exact hd.latch_outside m hm l hl hmem hheader b (hlatch b rfl) (fun he => hlatch' (by rw [he])) hb

/-- A block of the innermost loop that does not decide it is inside all of them. -/
theorem Nested.inside (hd : d.Loops g) {frames : List Frame} (h : Nested g d frames) {b : Nat}
    (hb : ∀ header exit body latch, frames.find? isLoop = some (.loop header exit body latch) → b ∈ body ∧
      latch ≠ some b) :
    Inside frames b := by
  induction frames with
  | nil => exact nofun
  | cons frame frames ih =>
      cases frame with
      | switch exit =>
          intro header exit body latch hf
          rcases List.mem_cons.mp hf with hf | hf
          · cases hf
          · exact ih h hb header exit body latch hf
      | loop header exit body latch =>
          have hfirst := hb header exit body latch rfl
          obtain ⟨hnested, hin, hne, l, hl, rfl, rfl, -⟩ := h
          intro header' exit' body' latch' hf
          rcases List.mem_cons.mp hf with hf | hf
          · cases hf
            exact hfirst
          · exact inside_of_loop hd hnested hl hin hne hfirst.1 _ _ _ _ hf

theorem Nested.clear (hd : d.Loops g) {frames : List Frame} (h : Nested g d frames) {b n : Nat} (hb : Inside frames b)
    (hn : n ∈ g.succs b) : Clear frames n := by
  intro header exit body latch hf he
  obtain ⟨hmem, hlatch⟩ := hb _ _ _ _ hf
  obtain ⟨l, hl, rfl, rfl, hdecides⟩ := h.loop hf
  have hback := hd.back l hl b hmem (he ▸ hn)
  obtain ⟨negated, out, hlast⟩ := (hdecides latch rfl).testsLast
  rw [hlast.only, List.mem_singleton] at hback
  exact hlatch (by rw [hback])

theorem Nested.label_ne {passed frames : List Frame} {header : Nat} {exit : Option Nat} {body : List Nat}
    {latch : Option Nat}
    (h : Nested g d (passed ++ .loop header exit body latch :: frames)) :
    ∀ c ∈ passed.map around, c.label ≠ some header := by
  induction passed with
  | nil => simp
  | cons frame passed ih =>
      cases frame with
      | switch exit' =>
          rw [List.map_cons, List.forall_mem_cons]
          exact ⟨nofun, ih h⟩
      | loop header' exit' body' latch' =>
          rw [List.map_cons, List.forall_mem_cons]
          obtain ⟨hnested, -, hne, -⟩ := h
          refine ⟨fun he => ?_, ih hnested⟩
          obtain rfl : header' = header := Option.some.inj he
          exact hne exit body latch (by simp)

theorem find?_label {passed frames : List Around} {c : Around} {p : Around → Bool} (hpassed : ∀ c ∈ passed, p c = false)
    (hc : p c = true) : (passed ++ c :: frames).find? p = some c := by
  rw [List.find?_append, List.find?_eq_none.mpr fun c hc => by simp [hpassed c hc]]
  simp [hc]

theorem label_isSome {passed : List Frame} (h : ¬ passed.any isLoop = true) :
    ∀ c ∈ passed.map around, c.label.isSome = false := by
  intro c hc
  obtain ⟨frame, hframe, rfl⟩ := List.mem_map.mp hc
  cases frame with
  | switch exit => rfl
  | loop header exit body latch => exact absurd (List.any_eq_true.mpr ⟨_, hframe, rfl⟩) h

theorem mem_frames_of_latch? {s : Scope} {b : Nat} (h : s.latch? = some b) :
    ∃ header exit body, .loop header exit body (some b) ∈ s.frames := by
  obtain ⟨frame, hframe, hlatch⟩ := Option.bind_eq_some_iff.mp h
  cases frame with
  | switch exit => cases hlatch
  | loop header exit body latch =>
      obtain rfl : latch = some b := hlatch
      exact ⟨header, exit, body, List.mem_of_find?_eq_some hframe⟩

/-- A loop catches the jumps to its header and to the block after it. -/
theorem jump?_ne_none {passed frames : List Frame} {header b : Nat} {exit : Option Nat} {body : List Nat}
    {latch : Option Nat}
    (h : .loop header exit body latch ∈ frames) (hb : b = header ∨ exit = some b) : jump? b passed frames ≠ none := by
  induction frames generalizing passed with
  | nil => cases h
  | cons frame frames ih =>
      rcases List.mem_cons.mp h with rfl | hrest
      · rcases hb with rfl | rfl <;> simp [jump?]
        split <;> simp
      · cases frame with
        | switch exit' =>
            simp only [jump?]
            split
            · simp
            · exact ih hrest
        | loop header' exit' body' latch' =>
            simp only [jump?]
            split
            · simp
            · split
              · simp
              · exact ih hrest

theorem jump?_passed {passed passed' frames : List Frame} {b : Nat} (hpassed : passed = [] → passed' = [])
    (h : jump? b passed frames ≠ none) : jump? b passed' frames ≠ none := by
  induction frames generalizing passed passed' with
  | nil => exact absurd rfl h
  | cons frame frames ih =>
      cases frame with
      | loop header exit body latch =>
          simp only [jump?] at h ⊢
          split
          · simp
          · rename_i hheader
            split
            · simp
            · rename_i hexit
              rw [if_neg hheader, if_neg hexit] at h
              exact ih (by simp) h
      | switch exit =>
          simp only [jump?] at h ⊢
          split
          · simp
          · rename_i hexit
            rw [if_neg] at h
            · exact ih (by simp) h
            · exact fun hcaught => hexit ⟨hcaught.1, by simpa using hpassed (by simpa using hcaught.2)⟩

/-- A jump that is caught is caught by the innermost construct or by one further out. -/
theorem catches_of_jump? {frame : Frame} {frames : List Frame} {b : Nat} (h : jump? b [] (frame :: frames) ≠ none) :
    frame.catchesJump b = true ∨ jump? b [] frames ≠ none := by
  refine or_iff_not_imp_left.mpr fun hfree => ?_
  cases frame with
  | loop header exit body latch =>
      obtain ⟨hheader, hexit⟩ : b ≠ header ∧ exit ≠ some b := by simpa [catchesJump] using hfree
      rw [jump?, if_neg hheader, if_neg hexit] at h
      exact jump?_passed (by simp) h
  | switch exit =>
      have hexit : exit ≠ some b := by simpa [catchesJump] using hfree
      rw [jump?, if_neg fun hcaught => hexit hcaught.1] at h
      exact jump?_passed (by simp) h

theorem fits_of_jump? {latches : List Nat} {b : Nat} {k : Option Nat} {r : Region} {passed frames : List Frame}
    (hnested : Nested g d (passed ++ frames)) (hclear : Clear (passed ++ frames) b)
    (h : jump? b passed frames = some r) :
    Fits g latches ((passed ++ frames).map around) b r k := by
  induction frames generalizing passed with
  | nil => cases h
  | cons frame frames ih =>
      have hstep : passed ++ frame :: frames = (passed ++ [frame]) ++ frames := by simp
      cases frame with
      | switch exit =>
          simp only [jump?] at h
          split at h
          · rename_i hexit
            cases h
            obtain ⟨rfl, hpassed⟩ := hexit
            obtain rfl : passed = [] := by simpa using hpassed
            rfl
          · rw [hstep] at hnested hclear ⊢
            exact ih hnested hclear h
      | loop header exit body latch =>
          have hlabel := hnested.label_ne
          simp only [jump?] at h
          split at h
          · rename_i hheader
            cases h
            have hcont : (around (.loop header exit body latch)).cont = some b := by
              cases latch with
              | none => simp [around, hheader]
              | some l => exact absurd hheader (hclear header exit body l (by simp))
            simp only [Fits]
            split
            · simp only [continueTo, List.map_append, List.map_cons]
              rw [find?_label (fun c hc => by simpa using hlabel c hc) (by simp [around])]
              exact hcont
            · rename_i hloop
              simp only [continueTo, List.map_append, List.map_cons]
              rw [find?_label (label_isSome hloop) (by simp [around])]
              exact hcont
          · split at h
            · rename_i hexit
              cases h
              simp only [Fits]
              split
              · rename_i hpassed
                obtain rfl : passed = [] := by simpa using hpassed
                exact hexit
              · simp only [breakTo, List.map_append, List.map_cons]
                rw [find?_label (fun c hc => by simpa using hlabel c hc) (by simp [around])]
                exact hexit
            · rw [hstep] at hnested hclear ⊢
              exact ih hnested hclear h

end Frame

end JavaLift
