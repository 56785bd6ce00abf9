import JavaLift.Proofs.Flow.Build
import JavaLift.Proofs.Flow.SearchOrder

namespace JavaLift

/-- A search under way. The stack has the latest node first, and for each node the successors that are still to be
followed; the tree has an edge for each node but the root. -/
structure Exploration where
  search : Search
  stack : List (Nat × List Nat)
  tree : List (Nat × Nat)

namespace Exploration

def start (g : Digraph) (root : Nat) : Exploration :=
  ⟨Search.enter ⟨Array.replicate g.size .untouched, [], []⟩ root, [(root, g.succs root)], []⟩

def step? (g : Digraph) (e : Exploration) : Option Exploration :=
  match e.stack with
  | [] => none
  | (b, []) :: stack => some ⟨e.search.leave b, stack, e.tree⟩
  | (b, t :: ts) :: stack => match e.search.status t with
    | .untouched => some ⟨e.search.enter t, (t, g.succs t) :: (b, ts) :: stack, (b, t) :: e.tree⟩
    | .entered => some ⟨{ e.search with retreating := e.search.retreating ++ [(b, t)] }, (b, ts) :: stack, e.tree⟩
    | .left => some ⟨e.search, (b, ts) :: stack, e.tree⟩

def Leads (g : Digraph) : Exploration → Exploration → Prop :=
  Relation.ReflTransGen fun e e' => e.step? g = some e'

def Ancestor (tree : List (Nat × Nat)) : Nat → Nat → Prop := Relation.ReflTransGen fun a b => (a, b) ∈ tree

theorem Ancestor.mono {tree tree' : List (Nat × Nat)} {a b : Nat} (h : Ancestor tree a b) (hsub : tree ⊆ tree') :
    Ancestor tree' a b := Relation.ReflTransGen.mono (fun _ _ he => hsub he) a b h

variable {g : Digraph} {root b t : Nat} {s : Search} {e e' : Exploration} {ts : List Nat}
  {stack : List (Nat × List Nat)} {tree : List (Nat × Nat)}

inductive Steps (g : Digraph) : Exploration → Exploration → Prop
  | leave (s : Search) (b : Nat) (stack tree) : Steps g ⟨s, (b, []) :: stack, tree⟩ ⟨s.leave b, stack, tree⟩
  | enter {s : Search} {t : Nat} (h : s.status t = .untouched) (b ts stack tree) :
      Steps g ⟨s, (b, t :: ts) :: stack, tree⟩ ⟨s.enter t, (t, g.succs t) :: (b, ts) :: stack, (b, t) :: tree⟩
  | retreat {s : Search} {t : Nat} (h : s.status t = .entered) (b ts stack tree) :
      Steps g ⟨s, (b, t :: ts) :: stack, tree⟩
        ⟨{ s with retreating := s.retreating ++ [(b, t)] }, (b, ts) :: stack, tree⟩
  | skip {s : Search} {t : Nat} (h : s.status t = .left) (b ts stack tree) :
      Steps g ⟨s, (b, t :: ts) :: stack, tree⟩ ⟨s, (b, ts) :: stack, tree⟩

theorem step?_eq_some : e.step? g = some e' ↔ Steps g e e' := by
  constructor
  · intro h
    obtain ⟨s, stack, tree⟩ := e
    cases stack with
    | nil => cases h
    | cons frame stack =>
        obtain ⟨b, pending⟩ := frame
        cases pending with
        | nil =>
            cases h
            exact .leave s b stack tree
        | cons t ts =>
            unfold step? at h
            dsimp only at h
            cases hstatus : s.status t with
            | untouched =>
                rw [hstatus] at h
                cases h
                exact .enter hstatus b ts stack tree
            | entered =>
                rw [hstatus] at h
                cases h
                exact .retreat hstatus b ts stack tree
            | left =>
                rw [hstatus] at h
                cases h
                exact .skip hstatus b ts stack tree
  · intro h
    cases h with
    | leave => rfl
    | enter h | retreat h | skip h => simp only [step?, h]

theorem Steps.leads (h : Steps g e e') : Leads g e e' := .single (step?_eq_some.mpr h)

theorem untouched_leave (s : Search) (b : Nat) : (s.leave b).untouched ≤ s.untouched := by
  refine Finset.card_le_card fun c hc => ?_
  obtain ⟨hlt, hfree⟩ := Finset.mem_filter.mp hc
  have hsize : (s.leave b).visits.size = s.visits.size := Array.size_setIfInBounds
  refine Finset.mem_filter.mpr ⟨hsize ▸ hlt, ?_⟩
  by_cases hb : b < s.visits.size
  · rw [Search.status_leave hb] at hfree
    split at hfree
    · cases hfree
    · exact hfree
  · have hsame : s.visits.setIfInBounds b .left = s.visits := Array.setIfInBounds_eq_of_size_le (Nat.le_of_not_lt hb)
    rwa [Search.status, Search.leave, hsame] at hfree

theorem Steps.untouched_le (h : Steps g e e') : e'.search.untouched ≤ e.search.untouched := by
  cases h with
  | leave s b => exact untouched_leave s b
  | enter h => exact (Search.untouched_enter h).le
  | retreat | skip => exact le_rfl

theorem Leads.untouched_le (h : Leads g e e') : e'.search.untouched ≤ e.search.untouched := by
  induction h with
  | refl => exact le_rfl
  | tail _ hstep ih => exact (step?_eq_some.mp hstep).untouched_le.trans ih

/-- The steps from the moment in which a node is entered come to the moment in which it is left, with what the recursion
finds. -/
def Traces (g : Digraph) (depth : Nat) : Prop := ∀ s b stack tree, s.status b = .untouched → s.untouched ≤ depth →
  ∃ tree', Leads g ⟨s.enter b, (b, g.succs b) :: stack, tree⟩ ⟨Search.run g.succs depth s b, stack, tree'⟩

theorem Traces.foldl {depth : Nat} (hrun : Traces g depth) (b : Nat) (ts : List Nat) (s : Search)
    (stack : List (Nat × List Nat)) (tree : List (Nat × Nat)) (hdepth : s.untouched ≤ depth) :
    ∃ tree', Leads g ⟨s, (b, ts) :: stack, tree⟩ ⟨ts.foldl (Search.follows g depth b) s, (b, []) :: stack, tree'⟩ := by
  induction ts generalizing s tree with
  | nil => exact ⟨tree, .refl⟩
  | cons t ts ih =>
      rw [List.foldl_cons]
      cases hstatus : s.status t with
      | untouched =>
          have hfollows : Search.follows g depth b s t = Search.run g.succs depth s t := by
            simp only [Search.follows, hstatus]
          obtain ⟨tree', hleads⟩ := hrun s t ((b, ts) :: stack) ((b, t) :: tree) hstatus hdepth
          have hless : (Search.run g.succs depth s t).untouched ≤ depth :=
            hleads.untouched_le.trans ((Search.untouched_enter hstatus).le.trans hdepth)
          obtain ⟨tree'', hrest⟩ := ih _ tree' hless
          rw [hfollows]
          exact ⟨tree'', (Steps.enter hstatus b ts stack tree).leads.trans (hleads.trans hrest)⟩
      | entered =>
          have hfollows : Search.follows g depth b s t = { s with retreating := s.retreating ++ [(b, t)] } := by
            simp only [Search.follows, hstatus]
          obtain ⟨tree', hrest⟩ := ih { s with retreating := s.retreating ++ [(b, t)] } tree hdepth
          rw [hfollows]
          exact ⟨tree', (Steps.retreat hstatus b ts stack tree).leads.trans hrest⟩
      | left =>
          have hfollows : Search.follows g depth b s t = s := by
            simp only [Search.follows, hstatus]
          obtain ⟨tree', hrest⟩ := ih s tree hdepth
          rw [hfollows]
          exact ⟨tree', (Steps.skip hstatus b ts stack tree).leads.trans hrest⟩

theorem traces_run (g : Digraph) (depth : Nat) : Traces g depth := by
  induction depth with
  | zero =>
      intro s b stack tree hb hdepth
      have hless := Search.untouched_enter hb
      omega
  | succ depth ih =>
      intro s b stack tree hb hdepth
      have hless := Search.untouched_enter hb
      obtain ⟨tree', hleads⟩ := ih.foldl b (g.succs b) (s.enter b) stack tree (by omega)
      rw [Search.run_succ]
      exact ⟨tree', hleads.trans (Steps.leave _ b stack tree').leads⟩

theorem leads_search (hroot : root < g.size) : ∃ tree, Leads g (start g root) ⟨g.search root, [], tree⟩ := by
  apply traces_run g g.size
  · rw [Search.status_start, if_pos hroot]
  · exact (Finset.card_filter_le _ _).trans (by simp)

/-- What holds at every moment of a search: the stack is a way down the tree, the tree has all nodes that were entered,
each of them once, and an edge that went back leads up the tree. -/
structure Grown (g : Digraph) (root : Nat) (e : Exploration) : Prop where
  size : e.search.visits.size = g.size
  pending : ∀ frame ∈ e.stack, frame.2 ⊆ g.succs frame.1
  entered : e.search.OnWay (e.stack.map Prod.fst)
  single : (e.stack.map Prod.fst).Nodup
  chain : (e.stack.map Prod.fst).IsChain fun b a => (a, b) ∈ e.tree
  edges : ∀ edge ∈ e.tree, edge.2 ∈ g.succs edge.1
  found : ∀ b < g.size, e.search.status b ≠ .untouched ↔ b ∈ root :: e.tree.map Prod.snd
  inside : ∀ b ∈ root :: e.tree.map Prod.snd, b < g.size
  once : (root :: e.tree.map Prod.snd).Nodup
  descends : ∀ b ∈ root :: e.tree.map Prod.snd, Ancestor e.tree root b
  back : ∀ edge ∈ e.search.retreating, Ancestor e.tree edge.2 edge.1

theorem grown_start (hroot : root < g.size) : Grown g root (start g root) := by
  have hlt : root < (⟨Array.replicate g.size .untouched, [], []⟩ : Search).visits.size := by simpa using hroot
  have hstatus (b : Nat) : (start g root).search.status b =
      if root = b then .entered else if b < g.size then .untouched else .left := by
    rw [start, Search.status_enter hlt, Search.status_start]
  refine ⟨by simp [start, Search.enter], ?_, ?_, List.nodup_singleton root, List.isChain_singleton root, ?_, ?_, ?_,
    List.nodup_singleton root, ?_, ?_⟩
  · intro frame hframe
    obtain rfl := List.mem_singleton.mp hframe
    exact List.Subset.refl _
  · intro b
    rw [hstatus]
    change _ ↔ b ∈ [root]
    rw [List.mem_singleton]
    split_ifs with he hb
    · exact iff_of_true rfl he.symm
    · exact iff_of_false (by decide) (Ne.symm he)
    · exact iff_of_false (by decide) (Ne.symm he)
  · intro edge hedge
    cases hedge
  · intro b hb
    rw [hstatus]
    change _ ↔ b ∈ [root]
    rw [List.mem_singleton]
    split_ifs with he
    · exact iff_of_true (by decide) he.symm
    · exact iff_of_false (not_not_intro rfl) (Ne.symm he)
  · intro b hb
    obtain rfl := List.mem_singleton.mp hb
    exact hroot
  · intro b hb
    obtain rfl := List.mem_singleton.mp hb
    exact .refl
  · intro edge hedge
    cases hedge

theorem lt_of_entered (h : s.status b = .entered) : b < s.visits.size := by
  by_contra hout
  rw [Search.status, Array.getElem?_eq_none (Nat.le_of_not_lt hout)] at h
  cases h

theorem ancestor_of_mem {path : List Nat} (h : (b :: path).IsChain fun b a => (a, b) ∈ tree) {a : Nat}
    (ha : a ∈ b :: path) : Ancestor tree a b := by
  induction path generalizing b with
  | nil =>
      obtain rfl := List.mem_singleton.mp ha
      exact .refl
  | cons c path ih =>
      rcases List.mem_cons.mp ha with rfl | ha
      · exact .refl
      · exact (ih h.tail ha).tail h.rel

namespace Grown

theorem leave (h : Grown g root ⟨s, (b, []) :: stack, tree⟩) : Grown g root ⟨s.leave b, stack, tree⟩ := by
  have hb : b < s.visits.size := lt_of_entered ((h.entered b).mpr List.mem_cons_self)
  have hnodup := List.nodup_cons.mp h.single
  refine ⟨Array.size_setIfInBounds.trans h.size, fun frame hframe => h.pending frame (List.mem_cons_of_mem _ hframe), ?_,
    hnodup.2, h.chain.tail, h.edges, ?_, h.inside, h.once, h.descends, h.back⟩
  · intro c
    rw [Search.status_leave hb]
    split
    · rename_i he
      exact iff_of_false (by decide) (he ▸ hnodup.1)
    · rename_i hne
      rw [h.entered c]
      change c ∈ b :: _ ↔ _
      rw [List.mem_cons, or_iff_right (Ne.symm hne)]
  · intro c hc
    rw [← h.found c hc, Search.status_leave hb]
    split
    · rename_i he
      rw [← he, (h.entered b).mpr List.mem_cons_self]
      exact iff_of_true (by decide) (by decide)
    · exact Iff.rfl

theorem follow (h : Grown g root ⟨s, (b, t :: ts) :: stack, tree⟩) : Grown g root ⟨s, (b, ts) :: stack, tree⟩ := by
  refine ⟨h.size, ?_, h.entered, h.single, h.chain, h.edges, h.found, h.inside, h.once, h.descends, h.back⟩
  intro frame hframe
  rcases List.mem_cons.mp hframe with rfl | hframe
  · exact fun c hc => h.pending _ List.mem_cons_self (List.mem_cons_of_mem t hc)
  · exact h.pending frame (List.mem_cons_of_mem _ hframe)

theorem retreat (h : Grown g root ⟨s, (b, ts) :: stack, tree⟩) (ht : s.status t = .entered) :
    Grown g root ⟨{ s with retreating := s.retreating ++ [(b, t)] }, (b, ts) :: stack, tree⟩ := by
  refine ⟨h.size, h.pending, h.entered, h.single, h.chain, h.edges, h.found, h.inside, h.once, h.descends, ?_⟩
  intro edge hedge
  rcases List.mem_append.mp hedge with hedge | hedge
  · exact h.back edge hedge
  · obtain rfl := List.mem_singleton.mp hedge
    exact ancestor_of_mem h.chain ((h.entered t).mp ht)

theorem enter (h : Grown g root ⟨s, (b, ts) :: stack, tree⟩) (hedge : t ∈ g.succs b) (ht : s.status t = .untouched) :
    Grown g root ⟨s.enter t, (t, g.succs t) :: (b, ts) :: stack, (b, t) :: tree⟩ := by
  have hlt : t < s.visits.size := Search.lt_of_untouched ht
  have hsize : s.visits.size = g.size := h.size
  have hnew : t ∉ root :: tree.map Prod.snd := fun hmem => (h.found t (hsize ▸ hlt)).mpr hmem ht
  have hoff : t ∉ b :: stack.map Prod.fst := by
    intro hmem
    have hentered := (h.entered t).mpr hmem
    rw [ht] at hentered
    cases hentered
  have hsub : tree ⊆ (b, t) :: tree := List.subset_cons_self _ _
  have hparent : Ancestor tree root b := by
    have hentered := (h.entered b).mpr List.mem_cons_self
    have hb : b < g.size := hsize ▸ lt_of_entered hentered
    apply h.descends b
    rw [← h.found b hb, hentered]
    decide
  have hmem {c : Nat} : c ∈ root :: ((b, t) :: tree).map Prod.snd ↔ c = t ∨ c ∈ root :: tree.map Prod.snd := by
    rw [List.map_cons, List.mem_cons, List.mem_cons, List.mem_cons, or_left_comm]
  refine ⟨(Search.size_enter s t).trans h.size, ?_, ?_, List.nodup_cons.mpr ⟨hoff, h.single⟩, ?_, ?_, ?_, ?_, ?_, ?_, ?_⟩
  · intro frame hframe
    rcases List.mem_cons.mp hframe with rfl | hframe
    · exact List.Subset.refl _
    · exact h.pending frame hframe
  · intro c
    rw [Search.status_enter hlt]
    change _ ↔ c ∈ t :: b :: stack.map Prod.fst
    rw [List.mem_cons]
    split
    · rename_i he
      exact iff_of_true rfl (.inl he.symm)
    · rename_i hne
      rw [or_iff_right (Ne.symm hne)]
      exact h.entered c
  · exact (h.chain.imp fun _ _ he => hsub he).cons_cons List.mem_cons_self
  · intro edge he
    rcases List.mem_cons.mp he with rfl | he
    · exact hedge
    · exact h.edges edge he
  · intro c hc
    rw [Search.status_enter hlt, hmem]
    split
    · rename_i he
      exact iff_of_true (by decide) (.inl he.symm)
    · rename_i hne
      rw [or_iff_right (Ne.symm hne)]
      exact h.found c hc
  · intro c hc
    rcases hmem.mp hc with rfl | hc
    · exact hsize ▸ hlt
    · exact h.inside c hc
  · rw [List.map_cons, (List.Perm.swap t root _).nodup_iff]
    exact List.nodup_cons.mpr ⟨hnew, h.once⟩
  · intro c hc
    rcases hmem.mp hc with rfl | hc
    · exact (hparent.mono hsub).tail List.mem_cons_self
    · exact (h.descends c hc).mono hsub
  · exact fun edge he => (h.back edge he).mono hsub

theorem step (h : Grown g root e) (hstep : Steps g e e') : Grown g root e' := by
  cases hstep with
  | leave => exact h.leave
  | enter ht => exact h.follow.enter (h.pending _ List.mem_cons_self List.mem_cons_self) ht
  | retreat ht => exact h.follow.retreat ht
  | skip => exact h.follow

theorem run (h : Grown g root e) (hleads : Leads g e e') : Grown g root e' := by
  induction hleads with
  | refl => exact h
  | tail _ hstep ih => exact ih.step (step?_eq_some.mp hstep)

end Grown

end Exploration

namespace Dominance

variable {g : Graph}

/-- The tree of a search of a graph: an edge to each block but the entry, each of them an edge of the graph. All blocks
are below the entry. -/
structure Spans (g : Graph) (tree : List (Nat × Nat)) : Prop where
  edges : ∀ edge ∈ tree, edge.2 ∈ g.exits edge.1
  once : (g.entry :: tree.map Prod.snd).Perm (List.range g.size)
  descends : ∀ b < g.size, Exploration.Ancestor tree g.entry b

theorem order_perm (hrooted : g.Rooted) : (Dominance.of g).order.Perm (List.range g.size) := by
  have hclosed : ∀ a < g.digraph.size, ∀ t ∈ g.digraph.succs a, t < g.digraph.size := fun a _ => hrooted.exits_lt a
  have hordered := Digraph.search_ordered (g := g.digraph) hrooted.entry_lt hclosed
  have hlt : ∀ b ∈ (g.digraph.search g.entry).order, b < g.size := by
    have hled := hordered.led
    generalize (g.digraph.search g.entry).order = order at hled
    induction order with
    | nil =>
        intro b hb
        cases hb
    | cons a later ih =>
        obtain ⟨⟨path, htrail, -⟩, hlater⟩ := hled
        exact List.forall_mem_cons.mpr ⟨htrail.inside a List.mem_cons_self, ih hlater⟩
  apply (List.perm_ext_iff_of_nodup hordered.nodup List.nodup_range).mpr
  intro b
  rw [List.mem_range]
  exact ⟨hlt b, fun hb => Digraph.mem_order hrooted.entry_lt hclosed (hrooted.reached b hb)⟩

theorem head?_order (hrooted : g.Rooted) : (Dominance.of g).order.head? = some g.entry := by
  obtain ⟨n, hn⟩ := Nat.exists_eq_succ_of_ne_zero (Nat.ne_zero_of_lt hrooted.entry_lt)
  change (g.digraph.search g.entry).order.head? = _
  have hsize : g.digraph.size = n + 1 := hn
  rw [Digraph.search, hsize, Search.run_succ]
  rfl

theorem spans_of_grown (hrooted : g.Rooted) {e : Exploration} (h : Exploration.Grown g.digraph g.entry e)
    (hsearch : e.search = g.digraph.search g.entry) : Spans g e.tree := by
  have hmem (b : Nat) : b ∈ g.entry :: e.tree.map Prod.snd ↔ b < g.size := by
    refine ⟨h.inside b, fun hb => (h.found b hb).mp ?_⟩
    rw [hsearch]
    exact Digraph.search_touched hrooted.entry_lt (hrooted.reached b hb)
  refine ⟨h.edges, ?_, fun b hb => h.descends b ((hmem b).mpr hb)⟩
  apply (List.perm_ext_iff_of_nodup h.once List.nodup_range).mpr
  intro b
  rw [hmem, List.mem_range]

/-- The search of a graph comes to an end. Its order has each block once and begins with the entry. The edges that it
lists lead to ancestors of their sources in its tree, and all others lead to later blocks. -/
theorem order_valid {insns : List Insn} {tries : List TryRange} {length : Nat}
    (h : Graph.build insns tries length = .ok g) :
    ∃ e, Exploration.Leads g.digraph (.start g.digraph g.entry) e ∧ e.step? g.digraph = none ∧
      e.search = g.digraph.search g.entry ∧ Spans g e.tree ∧
      (Dominance.of g).order = e.search.order ∧ (Dominance.of g).order.Perm (List.range g.size) ∧
      (Dominance.of g).order.head? = some g.entry ∧
      (∀ edge ∈ e.search.retreating, edge.2 ∈ g.exits edge.1 ∧ Exploration.Ancestor e.tree edge.2 edge.1) ∧
      ∀ a b, b ∈ g.exits a → (a, b) ∉ e.search.retreating →
        (Dominance.of g).orderIndex a < (Dominance.of g).orderIndex b := by
  have hrooted := Graph.build_rooted h
  obtain ⟨tree, hleads⟩ := Exploration.leads_search (g := g.digraph) hrooted.entry_lt
  have hgrown := (Exploration.grown_start (g := g.digraph) hrooted.entry_lt).run hleads
  refine ⟨_, hleads, rfl, rfl, spans_of_grown hrooted hgrown rfl, rfl, order_perm hrooted, head?_order hrooted, ?_, ?_⟩
  · intro edge hedge
    exact ⟨(Digraph.retreating_edge hrooted.entry_lt hedge).1, hgrown.back edge hedge⟩
  · intro a b hedge hno
    have hreached := hrooted.reached a (Graph.lt_of_mem_exits hedge)
    have hleads := Digraph.search_leads (g := g.digraph) hrooted.entry_lt (fun a _ => hrooted.exits_lt a) hreached hedge
    exact hleads.resolve_left hno

/-- A loop that leaves out one of its instructions at times. -/
def repeatSkipping : List Insn :=
  [.of (.jumpIf .eq 2) [.ofReg 0] none 0, .of .nop [] none 1, .of (.jumpIf .eq 0) [.ofReg 1] none 2, .of .ret [] none 3]

theorem order_valid_repeatSkipping :
    ∃ g, Graph.build repeatSkipping [] 4 = .ok g ∧ ∃ e, Exploration.Leads g.digraph (.start g.digraph g.entry) e ∧
      e.step? g.digraph = none ∧ (2, 0) ∈ e.search.retreating ∧ Exploration.Ancestor e.tree 0 2 ∧
      (Dominance.of g).orderIndex 0 < (Dominance.of g).orderIndex 2 := by
  obtain ⟨g, hbuild, hretreating, hexit⟩ : ∃ g, Graph.build repeatSkipping [] 4 = .ok g ∧
      (g.digraph.search g.entry).retreating = [(2, 0)] ∧ 2 ∈ g.exits 0 :=
    ⟨_, rfl, by decide +kernel, by decide +kernel⟩
  obtain ⟨e, hleads, hends, hsearch, -, -, -, -, hback, honward⟩ := order_valid hbuild
  rw [← hsearch] at hretreating
  have hmem : (2, 0) ∈ e.search.retreating := by rw [hretreating]; exact List.mem_singleton_self _
  refine ⟨g, hbuild, e, hleads, hends, hmem, (hback _ hmem).2, ?_⟩
  apply honward 0 2 hexit
  rw [hretreating]
  decide

end Dominance

end JavaLift
