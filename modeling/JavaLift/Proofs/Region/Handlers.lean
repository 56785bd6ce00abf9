import JavaLift.Proofs.Flow.Onward
import JavaLift.Proofs.Region.Jumps

namespace JavaLift

open JavaLift.Graph JavaLift.Digraph Region

variable {insns : List Insn} {tries : List TryRange} {length : Nat} {g : Graph}

def HandlerBlock.head (h : HandlerBlock) : CatchHead := ⟨h.exception, h.block⟩

/-- The guarded range has the handlers of a range of the code, in the order of the table. -/
def Graph.StandsFor (g : Graph) (t : TryRegion) (r : TryRange) : Prop :=
  List.Forall₂ (fun x h => x.exception = h.exception ∧ g.blockAt? h.target = some x.block) t.handlers r.handlers

theorem standsFor_of_tryRegion {drafts : List Draft} {regions : List TryRegion} {t : TryRegion} {r : TryRange}
    (hdrafted : Drafted insns tries length drafts regions)
    (h : tryRegion (startsOf (runs insns tries length)) r = .ok t) : (Graph.whole drafts regions).StandsFor t r := by
  obtain ⟨handlers, hhandlers, h⟩ := bind_eq_ok.mp h
  cases h
  refine (forall₂_of_mapM hhandlers).flip.imp fun x h hx => ?_
  obtain ⟨b, hb, hx⟩ := bind_eq_ok.mp hx
  cases hx
  exact ⟨rfl, blockAt?_whole hdrafted hb⟩

theorem Graph.StandsFor.restrict (hg : g.Closed) {t : TryRegion} (ht : t ∈ g.tries) {r : TryRange}
    (h : g.StandsFor t r) (hcovered : (restrictTry g.keptOf t).covered ≠ []) :
    (g.restrict g.keptOf).StandsFor (restrictTry g.keptOf t) r := by
  obtain ⟨n, hn⟩ := List.exists_mem_of_ne_nil _ hcovered
  obtain ⟨c, hc, hkept, -⟩ := mem_keep.mp hn
  have hhandler : ∀ x ∈ t.handlers, has g.keptOf x.block = true := fun x hx =>
    kept_of_exit hg hkept (List.mem_append_right _ ((hg.mem_handlers c (hg.covered_lt t ht c hc) _).mpr
      ⟨t, ht, hc, x, hx, rfl⟩))
  unfold StandsFor restrictTry at *
  rw [List.filter_eq_self.mpr hhandler, List.forall₂_map_left_iff]
  refine ((List.forall₂_and_left _ _).mpr ⟨hhandler, h⟩).imp fun x h hx => ?_
  exact ⟨hx.2.1, blockAt?_restrict hx.2.2 hx.1⟩

theorem tries_standFor (h : Graph.build insns tries length = .ok g) {t : TryRegion} (ht : t ∈ g.tries) :
    ∃ r ∈ tries, g.StandsFor t r := by
  obtain ⟨hne, -, drafts, regions, hdrafted, -, rfl⟩ := build_eq_ok h
  have hwhole : ∀ t ∈ (Graph.whole drafts regions).tries, ∃ r ∈ tries, (Graph.whole drafts regions).StandsFor t r := by
    intro t ht
    obtain ⟨r, hr, htry⟩ := exists_of_mem_mapM hdrafted.regions ht
    exact ⟨r, hr, standsFor_of_tryRegion hdrafted htry⟩
  rcases pruned_cases (Graph.whole drafts regions) with ⟨hsame, -⟩ | hrestrict
  · rw [hsame] at ht ⊢
    exact hwhole t ht
  · rw [hrestrict] at ht ⊢
    obtain ⟨t, hmem, rfl, hcovered, -⟩ := mem_tries_restrict.mp ht
    obtain ⟨r, hr, hstands⟩ := hwhole t hmem
    exact ⟨r, hr, hstands.restrict (hdrafted.closed hne) hmem hcovered⟩

namespace Region

variable {seen : List Nat} {handlers : List HandlerBlock}

theorem clauses_sublist (seen : List Nat) (handlers : List HandlerBlock) :
    (clauses seen handlers).Sublist (handlers.map HandlerBlock.head) := by
  induction handlers generalizing seen with
  | nil => exact .slnil
  | cons h rest ih =>
      unfold clauses
      split
      · exact (ih seen).cons _
      · exact (ih (h.block :: seen)).cons_cons _

theorem block_of_mem_clauses {c : CatchHead} (hc : c ∈ clauses seen handlers) : c.block ∉ seen := by
  induction handlers generalizing seen with
  | nil => cases hc
  | cons h rest ih =>
      unfold clauses at hc
      split at hc
      · exact ih hc
      · rename_i hfree
        rcases List.mem_cons.mp hc with rfl | hc
        · simpa using hfree
        · exact fun hseen => ih hc (List.mem_cons_of_mem _ hseen)

theorem eq_of_mem_clauses {c c' : CatchHead} (hc : c ∈ clauses seen handlers) (hc' : c' ∈ clauses seen handlers)
    (hblock : c.block = c'.block) : c = c' := by
  induction handlers generalizing seen with
  | nil => cases hc
  | cons h rest ih =>
      unfold clauses at hc hc'
      split at hc
      · rw [if_pos ‹_›] at hc'
        exact ih hc hc'
      · rw [if_neg ‹_›] at hc'
        rcases List.mem_cons.mp hc with rfl | hc <;> rcases List.mem_cons.mp hc' with rfl | hc'
        · rfl
        · exact absurd List.mem_cons_self (hblock ▸ block_of_mem_clauses hc')
        · exact absurd List.mem_cons_self (hblock ▸ block_of_mem_clauses hc)
        · exact ih hc hc'

theorem exists_clause {h : HandlerBlock} (hh : h ∈ handlers) (hfree : h.block ∉ seen) :
    ∃ c ∈ clauses seen handlers, c.block = h.block := by
  induction handlers generalizing seen with
  | nil => cases hh
  | cons x rest ih =>
      unfold clauses
      split
      · rename_i hseen
        rcases List.mem_cons.mp hh with rfl | hh
        · exact absurd (by simpa using hseen) hfree
        · exact ih hh hfree
      · by_cases hsame : h.block = x.block
        · exact ⟨_, List.mem_cons_self, hsame.symm⟩
        · rcases List.mem_cons.mp hh with rfl | hh
          · exact absurd rfl hsame
          · have hfree' : h.block ∉ x.block :: seen := by simp [hsame, hfree]
            obtain ⟨c, hc, hblock⟩ := ih hh hfree'
            exact ⟨c, List.mem_cons_of_mem _ hc, hblock⟩

/-- Every handler has a clause with its type and its block, in the order of the table. -/
structure KeepsHandlers (handlers : List HandlerBlock) (heads : List CatchHead) : Prop where
  each : ∀ h ∈ handlers, h.head ∈ heads
  inOrder : heads.Sublist (handlers.map HandlerBlock.head)

def Uniform (handlers : List HandlerBlock) : Prop :=
  ∀ x ∈ handlers, ∀ y ∈ handlers, x.block = y.block → x.exception = y.exception

theorem keepsHandlers_clauses : KeepsHandlers handlers (clauses [] handlers) ↔ Uniform handlers := by
  constructor
  · intro hkeeps x hx y hy hblock
    exact congrArg CatchHead.exception (eq_of_mem_clauses (hkeeps.each x hx) (hkeeps.each y hy) hblock)
  · refine fun huniform => ⟨fun h hh => ?_, clauses_sublist [] handlers⟩
    obtain ⟨c, hc, hblock⟩ := exists_clause hh (List.not_mem_nil : h.block ∉ [])
    obtain ⟨x, hx, rfl⟩ := List.mem_map.mp ((clauses_sublist [] handlers).subset hc)
    have hexception : x.exception = h.exception := huniform x hx h hh hblock
    have hhead : h.head = x.head := by rw [HandlerBlock.head, HandlerBlock.head, hexception, show x.block = h.block from hblock]
    rwa [hhead]

theorem tryRegionAt_clauses (g : Graph) (walk : Walk) (s : Scope) (asBody : Bool) (n : Nat) (t : TryRegion)
    (p : Progress) : Ends (tryRegionAt g walk s asBody n t) p fun r _ =>
      t.covered = [] ∧ r.1 = [] ∨ ∃ body catches, r.1 = [.guarded body catches] ∧
        catches.map (·.1) = clauses [] t.handlers := by
  unfold tryRegionAt
  refine .modify ?_
  split
  · exact .pure (.inl ⟨‹_›, rfl⟩)
  · refine .bind (.any fun body q => .bind ((catchesOf_heads g walk _ [] _ q).mono
      fun catches q' h => .pure (.inr ⟨_, catches, rfl, h⟩)))

def Tabled (g : Graph) (items : List Region) : Prop :=
  ∀ body catches, .guarded body catches ∈ nodesOf items → ∃ t ∈ g.tries, catches.map (·.1) = clauses [] t.handlers

namespace Tabled

variable {items more : List Region} {r : Region}

theorem append (h : Tabled g items) (h' : Tabled g more) : Tabled g (items ++ more) := by
  intro body catches hmem
  rw [nodesOf_append, List.mem_append] at hmem
  exact hmem.elim (h body catches) (h' body catches)

theorem wrap (h : Tabled g items)
    (hr : ∀ body catches, .guarded body catches ∈ nodes r → .guarded body catches ∈ nodesOf items) : Tabled g [r] :=
  fun body catches hmem => h body catches (hr body catches (by simpa [nodesOf] using hmem))

theorem leaf (hnodes : nodes r = [r]) (hr : ∀ body catches, r ≠ .guarded body catches) : Tabled g [r] := by
  intro body catches hmem
  obtain rfl : .guarded body catches = r := by simpa [nodesOf, hnodes] using hmem
  exact absurd rfl (hr body catches)

theorem ofList (h : Tabled g items) : Tabled g [ofList items] := by
  unfold Region.ofList
  split
  · exact h
  · exact h.wrap fun _ _ hmem => by simpa [nodes] using hmem

theorem withoutLastContinue (h : Tabled g items) : Tabled g (withoutLastContinue items) := by
  rcases withoutLastContinue_cases items with hsame | hsplit
  · rwa [hsame]
  · intro body catches hmem
    refine h body catches ?_
    rw [hsplit, nodesOf_append]
    exact List.mem_append_left _ hmem

theorem jump {b : Nat} {frames : List Frame} (h : Frame.jump? b [] frames = some r) : Tabled g [r] := by
  obtain ⟨inner, f, outer, -, hworded⟩ := Frame.worded_of_jump? h
  cases hworded <;> exact leaf rfl nofun

theorem guarded {t : TryRegion} (ht : t ∈ g.tries) {body : Region} {catches : List (CatchHead × Region)}
    (hcatches : catches.map (·.1) = clauses [] t.handlers) (h : Tabled g [body])
    (h' : Tabled g (catches.map (·.2))) : Tabled g [.guarded body catches] := by
  intro body' catches' hmem
  simp only [nodesOf, nodes, List.append_nil, List.mem_cons, List.mem_append, nodesOfCatches_eq] at hmem
  rcases hmem with hsame | hmem | hmem
  · cases hsame
    exact ⟨t, ht, hcatches⟩
  · exact h body' catches' (by simpa [nodesOf] using hmem)
  · exact h' body' catches' hmem

theorem buildable (g : Graph) (d : Dominance) : Buildable g d fun _ _ items _ => Tabled g items where
  nil := nofun
  append := append
  place := nofun
  guard := nofun
  label _ := nofun
  inside h := h
  ofList := ofList
  block := leaf rfl nofun
  jump := jump
  goto _ := leaf rfl nofun
  leaveSwitch := leaf rfl nofun
  branch h := h.wrap fun _ _ hmem => by simpa [nodes, nodesOf] using hmem
  branchElse h := h.wrap fun _ _ hmem => by simpa [nodes, nodesOf] using hmem
  loop _ _ h := (ofList h.withoutLastContinue).wrap fun _ _ hmem => by simpa [nodes, nodesOf] using hmem
  switch hlength h := h.wrap fun _ _ hmem => by simpa [nodes, nodesOfCases_zip _ _ hlength] using hmem
  guarded ht hcatches h h' := guarded ht hcatches h h'

end Tabled

end Region

namespace Structured

theorem tabled_of (g : Graph) : Tabled g [(of g).root] := by
  rcases of_cases g with hof | ⟨items, p, hrun, hof⟩
  · intro body catches hmem
    rw [hof] at hmem
    simp [ofBlocks, nodesOf, nodes, nodesOf_raw] at hmem
  · have htabled := everything_builds (Tabled.buildable g (Dominance.of g))
      (fun _ _ h => absurd h List.not_mem_nil) .start
    rw [Ends, show everything g (Dominance.of g) .start = (items, p) from hrun] at htabled
    rw [hof]
    exact htabled.ofList

/-- A guarded range is built with a clause for every handler just when no block handles two types, and there is no
other guarded range in the region tree of a graph than those that are built so, of ranges of the code. -/
theorem keepsHandlers_iff (h : Graph.build insns tries length = .ok g) :
    (∀ t ∈ g.tries, ∃ r ∈ tries, g.StandsFor t r) ∧
    (∀ walk s asBody n t p, Ends (tryRegionAt g walk s asBody n t) p fun r _ => ∀ body catches,
      .guarded body catches ∈ r.1 → (KeepsHandlers t.handlers (catches.map (·.1)) ↔ Uniform t.handlers)) ∧
    ∀ body catches, .guarded body catches ∈ nodes (of g).root → ∃ t ∈ g.tries,
      catches.map (·.1) = clauses [] t.handlers ∧
      (KeepsHandlers t.handlers (catches.map (·.1)) ↔ Uniform t.handlers) := by
  refine ⟨fun t ht => tries_standFor h ht, fun walk s asBody n t p => ?_, fun body catches hmem => ?_⟩
  · refine (tryRegionAt_clauses g walk s asBody n t p).mono fun r q hr body catches hmem => ?_
    rcases hr with ⟨-, hnil⟩ | ⟨body', catches', hone, hclauses⟩
    · rw [hnil] at hmem
      cases hmem
    · obtain ⟨-, rfl⟩ : body = body' ∧ catches = catches' := by simpa [hone] using hmem
      rw [hclauses]
      exact keepsHandlers_clauses
  · obtain ⟨t, ht, hclauses⟩ := tabled_of g body catches (by simpa [nodesOf] using hmem)
    refine ⟨t, ht, hclauses, ?_⟩
    rw [hclauses]
    exact keepsHandlers_clauses

def handledCall : List Insn :=
  [.of (.invoke .static ⟨"Foo", "g", [], .void⟩) [] none 0, .of .ret [] none 1,
    .of (.moveException none) [] (some (.plain 2)) 2, .of .ret [] none 3,
    .of (.moveException none) [] (some (.plain 2)) 4, .of .ret [] none 5]

def clausesIn (r : Region) : List (List CatchHead) :=
  (nodes r).filterMap fun
    | .guarded _ catches => some (catches.map (·.1))
    | _ => none

theorem mem_clausesIn {r : Region} {heads : List CatchHead} :
    heads ∈ clausesIn r ↔ ∃ body catches, .guarded body catches ∈ nodes r ∧ catches.map (·.1) = heads := by
  unfold clausesIn
  rw [List.mem_filterMap]
  constructor
  · rintro ⟨r', hr', hheads⟩
    split at hheads
    · exact ⟨_, _, hr', Option.some.inj hheads⟩
    · cases hheads
  · rintro ⟨body, catches, hmem, rfl⟩
    exact ⟨_, hmem, rfl⟩

theorem keepsHandlers_twoBlocks :
    ∃ g, Graph.build handledCall [⟨0, 1, [⟨some (.object "A"), 2⟩, ⟨some (.object "B"), 4⟩]⟩] 6 = .ok g ∧
      ∃ body catches, .guarded body catches ∈ nodes (of g).root ∧ ∃ t ∈ g.tries, t.handlers.length = 2 ∧
        KeepsHandlers t.handlers (catches.map (·.1)) := by
  obtain ⟨g, hbuild, hclauses, htries⟩ :
    ∃ g, Graph.build handledCall [⟨0, 1, [⟨some (.object "A"), 2⟩, ⟨some (.object "B"), 4⟩]⟩] 6 = .ok g ∧
      clausesIn (of g).root = [[⟨some (.object "A"), 2⟩, ⟨some (.object "B"), 3⟩]] ∧
      g.tries.map (·.handlers) = [[⟨some (.object "A"), 2⟩, ⟨some (.object "B"), 3⟩]] :=
    ⟨_, rfl, by decide +kernel, by decide +kernel⟩
  have hheads : [⟨some (.object "A"), 2⟩, ⟨some (.object "B"), 3⟩] ∈ clausesIn (of g).root := by simp [hclauses]
  obtain ⟨body, catches, hmem, -⟩ := mem_clausesIn.mp hheads
  obtain ⟨t, ht, -, hiff⟩ := (keepsHandlers_iff hbuild).2.2 body catches hmem
  have hhandlers : t.handlers ∈ g.tries.map (·.handlers) := List.mem_map.mpr ⟨t, ht, rfl⟩
  rw [htries, List.mem_singleton] at hhandlers
  refine ⟨g, hbuild, body, catches, hmem, t, ht, by rw [hhandlers]; rfl, hiff.mpr ?_⟩
  rw [hhandlers]
  unfold Uniform
  decide

/-- The range has handlers for two types at one block. The second one gets no clause, and no remark is left. -/
theorem not_keepsHandlers_oneBlock :
    ∃ g, Graph.build handledCall [⟨0, 1, [⟨some (.object "A"), 2⟩, ⟨some (.object "B"), 2⟩]⟩] 6 = .ok g ∧
      (of g).diagnostics = [] ∧ ∃ body catches, .guarded body catches ∈ nodes (of g).root ∧
        ∀ t ∈ g.tries, ⟨some (.object "B"), 2⟩ ∈ t.handlers ∧ ¬ KeepsHandlers t.handlers (catches.map (·.1)) ∧
          ∀ c ∈ catches.map (·.1), c.exception ≠ some (.object "B") := by
  obtain ⟨g, hbuild, hquiet, hclauses, htries⟩ :
    ∃ g, Graph.build handledCall [⟨0, 1, [⟨some (.object "A"), 2⟩, ⟨some (.object "B"), 2⟩]⟩] 6 = .ok g ∧
      (of g).diagnostics = [] ∧ clausesIn (of g).root = [[⟨some (.object "A"), 2⟩]] ∧
      g.tries.map (·.handlers) = [[⟨some (.object "A"), 2⟩, ⟨some (.object "B"), 2⟩]] :=
    ⟨_, rfl, by decide +kernel, by decide +kernel, by decide +kernel⟩
  have hheads : [⟨some (.object "A"), 2⟩] ∈ clausesIn (of g).root := by simp [hclauses]
  obtain ⟨body, catches, hmem, hcatches⟩ := mem_clausesIn.mp hheads
  refine ⟨g, hbuild, hquiet, body, catches, hmem, fun t ht => ?_⟩
  have hhandlers : t.handlers ∈ g.tries.map (·.handlers) := List.mem_map.mpr ⟨t, ht, rfl⟩
  rw [htries, List.mem_singleton] at hhandlers
  rw [hcatches, hhandlers]
  refine ⟨by simp, fun hkeeps => ?_, by simp⟩
  have hsecond := hkeeps.each ⟨some (.object "B"), 2⟩ (by simp)
  simp [HandlerBlock.head] at hsecond

end Structured

end JavaLift
