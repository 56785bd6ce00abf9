import JavaLift.Proofs.Flow.Dominators
import JavaLift.Proofs.Flow.Search

namespace JavaLift

/-- A way from the root that passes no node twice, its last node first. -/
structure Digraph.Trail (g : Digraph) (root : Nat) (path : List Nat) : Prop where
  starts : path.getLast? = some root
  edges : path.IsChain fun b a => b ∈ g.succs a
  nodup : path.Nodup
  inside : ∀ b ∈ path, b < g.size

namespace Digraph.Trail

variable {g : Digraph} {root a b : Nat} {path : List Nat}

theorem suffix {later : List Nat} (h : g.Trail root (later ++ a :: path)) : g.Trail root (a :: path) :=
  ⟨(List.getLast?_append_cons later a path).symm.trans h.starts, h.edges.right_of_append, h.nodup.of_append_right,
    fun c hc => h.inside c (List.mem_append_right later hc)⟩

theorem tail (h : g.Trail root (b :: a :: path)) : g.Trail root (a :: path) :=
  suffix (show g.Trail root ([b] ++ a :: path) from h)

theorem cons (h : g.Trail root (a :: path)) (hedge : b ∈ g.succs a) (hlt : b < g.size) (hnew : b ∉ a :: path) :
    g.Trail root (b :: a :: path) :=
  ⟨(List.getLast?_cons_cons).trans h.starts, h.edges.cons_cons hedge, List.nodup_cons.mpr ⟨hnew, h.nodup⟩,
    List.forall_mem_cons.mpr ⟨hlt, h.inside⟩⟩

/-- The way passes nothing but its own nodes. -/
theorem reaches (h : g.Trail root (b :: path)) {c : Nat} (hc : c ∉ b :: path) : g.Reaches (· == c) [root] b := by
  have hne : b ≠ c := fun he => hc (he ▸ List.mem_cons_self)
  have hlt := h.inside b List.mem_cons_self
  induction path generalizing b with
  | nil =>
      obtain rfl : b = root := by simpa using h.starts
      exact .root (List.mem_singleton_self b) hlt (beq_false_of_ne hne)
  | cons a path ih =>
      have hc' : c ∉ a :: path := fun hmem => hc (List.mem_cons_of_mem b hmem)
      have hbefore := ih h.tail hc' (fun he => hc' (he ▸ List.mem_cons_self)) (h.tail.inside a List.mem_cons_self)
      exact .step hbefore h.edges.rel hlt (beq_false_of_ne hne)

end Digraph.Trail

namespace Search

variable {g : Digraph} {root b : Nat} {path : List Nat} {s s' : Search}

/-- Each node leads to later ones, or back. -/
def Ahead (g : Digraph) (retreating : List (Nat × Nat)) : List Nat → Prop
  | [] => True
  | a :: later => (∀ t ∈ g.succs a, (a, t) ∈ retreating ∨ t ∈ later) ∧ Ahead g retreating later

theorem Ahead.mono {retreating retreating' : List (Nat × Nat)} {order : List Nat} (h : Ahead g retreating order)
    (hsub : retreating ⊆ retreating') : Ahead g retreating' order := by
  induction order with
  | nil => trivial
  | cons a later ih => exact ⟨fun t ht => (h.1 t ht).imp_left fun he => hsub he, ih h.2⟩

/-- The search has come to each node past all later ones. -/
def Led (g : Digraph) (root : Nat) : List Nat → Prop
  | [] => True
  | a :: later => (∃ path, g.Trail root (a :: path) ∧ path.Disjoint later) ∧ Led g root later

/-- The nodes that were left are in order, and an edge that goes back stays on the way to its source. -/
structure Ordered (g : Digraph) (root : Nat) (s : Search) : Prop where
  mem : ∀ b < g.size, s.status b = .left ↔ b ∈ s.order
  nodup : s.order.Nodup
  ahead : Ahead g s.retreating s.order
  led : Led g root s.order
  back : ∀ e ∈ s.retreating, ∃ path, g.Trail root (e.1 :: path) ∧ e.2 ∈ e.1 :: path

def OnWay (s : Search) (path : List Nat) : Prop := ∀ b, s.status b = .entered ↔ b ∈ path

theorem OnWay.explored (h : s.OnWay path) (hexplored : Explored g root s s') : s'.OnWay path := fun b =>
  ⟨fun hb => (h b).mp (hexplored.entered b hb), fun hb => by
    have hentered := (h b).mpr hb
    rw [hexplored.kept b (by rw [hentered]; exact nofun), hentered]⟩

theorem OnWay.reaches (h : s.OnWay (b :: path)) (htrail : g.Trail root (b :: path)) (t : Nat)
    (ht : s.status t ≠ .entered) : g.Reaches (· == t) [root] b :=
  htrail.reaches fun hmem => ht ((h t).mpr hmem)

def Sorts (g : Digraph) (root depth : Nat) : Prop :=
  ∀ s b path, s.visits.size = g.size → s.status b = .untouched → untouched s ≤ depth → Ordered g root s →
    g.Trail root (b :: path) → s.OnWay path →
    Ordered g root (run g.succs depth s b) ∧ (run g.succs depth s b).status b = .left

section

variable {depth : Nat} (hrun : Sorts g root depth)
include hrun

theorem follows_ordered {t : Nat} (hsize : s.visits.size = g.size) (hdepth : untouched s ≤ depth)
    (h : Ordered g root s) (htrail : g.Trail root (b :: path)) (hway : s.OnWay (b :: path)) (ht : t ∈ g.succs b) :
    Ordered g root (follows g depth b s t) ∧
      ((b, t) ∈ (follows g depth b s t).retreating ∨ (follows g depth b s t).status t = .left) := by
  cases hstatus : s.status t with
  | untouched =>
      have hnew : t ∉ b :: path := fun hmem => nomatch hstatus.symm.trans ((hway t).mpr hmem)
      obtain ⟨hordered, hleft⟩ :=
        hrun s t (b :: path) hsize hstatus hdepth h (htrail.cons ht (hsize ▸ lt_of_untouched hstatus) hnew) hway
      simp only [follows, hstatus]
      exact ⟨hordered, .inr hleft⟩
  | entered =>
      simp only [follows, hstatus]
      refine ⟨⟨h.mem, h.nodup, h.ahead.mono (List.subset_append_left ..), h.led, ?_⟩, .inl (by simp)⟩
      intro e he
      rcases List.mem_append.mp he with he | he
      · exact h.back e he
      · obtain rfl := List.mem_singleton.mp he
        exact ⟨path, htrail, (hway t).mp hstatus⟩
  | left =>
      simp only [follows, hstatus]
      exact ⟨h, .inr trivial⟩

theorem foldl_ordered (ts : List Nat) (hsize : s.visits.size = g.size) (hdepth : untouched s ≤ depth)
    (h : Ordered g root s) (htrail : g.Trail root (b :: path)) (hway : s.OnWay (b :: path))
    (hts : ∀ t ∈ ts, t ∈ g.succs b) :
    Ordered g root (ts.foldl (follows g depth b) s) ∧ ∀ t ∈ ts,
      (b, t) ∈ (ts.foldl (follows g depth b) s).retreating ∨ (ts.foldl (follows g depth b) s).status t = .left := by
  induction ts generalizing s with
  | nil => exact ⟨h, nofun⟩
  | cons t ts ih =>
      rw [List.forall_mem_cons] at hts
      have hlt := htrail.inside b List.mem_cons_self
      have hexplores := run_explores g root depth
      obtain ⟨hfirst, -⟩ := follows_explored hexplores hsize hdepth hlt (hway.reaches htrail) hts.1
      obtain ⟨hordered, hedge⟩ := follows_ordered hrun hsize hdepth h htrail hway hts.1
      have hsize' := hfirst.size.trans hsize
      have hdepth' := hfirst.untouched_le.trans hdepth
      have hway' := hway.explored hfirst
      obtain ⟨hmore, hall⟩ := ih hsize' hdepth' hordered hway' hts.2
      obtain ⟨hrest, -⟩ := foldl_explored hexplores ts hsize' hdepth' hlt (hway'.reaches htrail) hts.2
      refine ⟨hmore, List.forall_mem_cons.mpr ⟨?_, hall⟩⟩
      refine hedge.imp (fun he => hrest.grows he) fun hleft => ?_
      rw [List.foldl_cons, hrest.kept t (by rw [hleft]; exact nofun), hleft]

end

theorem run_sorts (hclosed : ∀ a < g.size, ∀ t ∈ g.succs a, t < g.size) (root depth : Nat) : Sorts g root depth := by
  induction depth with
  | zero =>
      intro s b path _ hb hdepth
      have hpos : 0 < untouched s :=
        Finset.card_pos.mpr ⟨b, Finset.mem_filter.mpr ⟨Finset.mem_range.mpr (lt_of_untouched hb), hb⟩⟩
      omega
  | succ depth ih =>
      intro s b path hsize hb hdepth h htrail hway
      have hlt := lt_of_untouched hb
      have hless := untouched_enter hb
      have hsize' : (s.enter b).visits.size = g.size := (size_enter s b).trans hsize
      have hfresh : b ∉ s.order := fun hmem => nomatch hb.symm.trans ((h.mem b (hsize ▸ hlt)).mpr hmem)
      have hentered : Ordered g root (s.enter b) := by
        refine ⟨fun c hc => ?_, h.nodup, h.ahead, h.led, h.back⟩
        rw [status_enter hlt]
        split
        · rename_i he
          exact iff_of_false nofun (he ▸ hfresh)
        · exact h.mem c hc
      have hway' : (s.enter b).OnWay (b :: path) := by
        intro c
        rw [status_enter hlt, List.mem_cons]
        split
        · exact iff_of_true rfl (.inl (Eq.symm ‹_›))
        · rw [hway c, or_iff_right (Ne.symm ‹_›)]
      obtain ⟨hinner, hedges⟩ := foldl_ordered ih (g.succs b) hsize' (by omega) hentered htrail hway' fun _ ht => ht
      obtain ⟨hexplored, -⟩ := foldl_explored (run_explores g root depth) (g.succs b) hsize' (by omega) (hsize ▸ hlt)
        (hway'.reaches htrail) fun _ ht => ht
      have hway'' := hway'.explored hexplored
      rw [run_succ]
      generalize (g.succs b).foldl (follows g depth b) (s.enter b) = s' at hinner hedges hexplored hway'' ⊢
      have hlt' : b < s'.visits.size := by rwa [hexplored.size, hsize', ← hsize]
      have hstays : b ∉ s'.order := by
        rw [← hinner.mem b (hsize ▸ hlt), (hway'' b).mpr List.mem_cons_self]
        exact nofun
      have hpast : path.Disjoint s'.order := fun c hc hlater => by
        have hleft := (hinner.mem c (htrail.inside c (List.mem_cons_of_mem b hc))).mpr hlater
        exact nomatch hleft.symm.trans ((hway'' c).mpr (List.mem_cons_of_mem b hc))
      refine ⟨⟨fun c hc => ?_, List.nodup_cons.mpr ⟨hstays, hinner.nodup⟩, ⟨fun t ht => ?_, hinner.ahead⟩,
        ⟨⟨path, htrail, hpast⟩, hinner.led⟩, hinner.back⟩, by rw [status_leave hlt', if_pos rfl]⟩
      · rw [status_leave hlt']
        change _ ↔ c ∈ b :: s'.order
        rw [List.mem_cons]
        split
        · exact iff_of_true rfl (.inl (Eq.symm ‹_›))
        · rw [hinner.mem c hc, or_iff_right (Ne.symm ‹_›)]
      · exact (hedges t ht).imp_right fun hleft => (hinner.mem t (hclosed b (hsize ▸ hlt) t ht)).mp hleft

theorem status_start (size b : Nat) :
    status ⟨Array.replicate size .untouched, [], []⟩ b = if b < size then .untouched else .left := by
  rw [status, Array.getElem?_replicate]
  split <;> rfl

theorem idxOf_later {a c : Nat} {later : List Nat} (hnodup : (a :: later).Nodup) (hc : c ∈ later) :
    (a :: later).idxOf c = later.idxOf c + 1 :=
  List.idxOf_cons_ne _ fun he => (List.nodup_cons.mp hnodup).1 (he ▸ hc)

theorem Ahead.lt {retreating : List (Nat × Nat)} {order : List Nat} {a t : Nat} (h : Ahead g retreating order)
    (hnodup : order.Nodup) (ha : a ∈ order) (ht : t ∈ g.succs a) :
    (a, t) ∈ retreating ∨ t ∈ order ∧ order.idxOf a < order.idxOf t := by
  induction order with
  | nil => cases ha
  | cons first later ih =>
      rcases List.mem_cons.mp ha with rfl | ha
      · refine (h.1 t ht).imp_right fun hmem => ⟨List.mem_cons_of_mem a hmem, ?_⟩
        rw [List.idxOf_cons_self, idxOf_later hnodup hmem]
        exact Nat.succ_pos _
      · refine (ih h.2 hnodup.of_cons ha).imp_right fun ⟨hmem, hlt⟩ => ⟨List.mem_cons_of_mem first hmem, ?_⟩
        rw [idxOf_later hnodup ha, idxOf_later hnodup hmem]
        exact Nat.succ_lt_succ hlt

theorem Led.lt {order : List Nat} {a : Nat} (h : Led g root order) (hnodup : order.Nodup) (ha : a ∈ order)
    (hb : b ∈ order) (hdom : g.Dominates root a b) (hne : a ≠ b) : order.idxOf a < order.idxOf b := by
  induction order with
  | nil => cases ha
  | cons first later ih =>
      obtain ⟨⟨path, htrail, hpast⟩, hled⟩ := h
      rcases List.mem_cons.mp hb with rfl | hb
      · have hon : a ∈ b :: path := by_contra fun hoff => hdom (htrail.reaches hoff)
        exact absurd ((List.mem_cons.mp ha).resolve_left hne) (hpast ((List.mem_cons.mp hon).resolve_left hne))
      · rw [idxOf_later hnodup hb]
        rcases List.mem_cons.mp ha with rfl | ha
        · rw [List.idxOf_cons_self]
          exact Nat.succ_pos _
        · rw [idxOf_later hnodup ha]
          exact Nat.succ_lt_succ (ih hled hnodup.of_cons ha hb)

end Search

namespace Digraph

variable {g : Digraph} {root : Nat} (hroot : root < g.size) (hclosed : ∀ a < g.size, ∀ t ∈ g.succs a, t < g.size)
include hroot hclosed

theorem search_ordered : Search.Ordered g root (g.search root) := by
  have hdepth : Search.untouched ⟨Array.replicate g.size .untouched, [], []⟩ ≤ g.size :=
    (Finset.card_filter_le _ _).trans (by simp)
  refine (Search.run_sorts hclosed root g.size _ root [] (by simp) ?_ hdepth ?_ ?_ ?_).1
  · rw [Search.status_start, if_pos hroot]
  · refine ⟨fun b hb => ?_, List.nodup_nil, trivial, trivial, nofun⟩
    rw [Search.status_start, if_pos hb]
    exact iff_of_false nofun List.not_mem_nil
  · exact ⟨rfl, List.isChain_singleton root, List.nodup_singleton root, List.forall_mem_singleton.mpr hroot⟩
  · intro b
    rw [Search.status_start]
    split <;> exact iff_of_false nofun List.not_mem_nil

theorem mem_order {b : Nat} (hb : g.Reaches (fun _ => false) [root] b) : b ∈ (g.search root).order := by
  have htouched := search_touched hroot hb
  refine ((search_ordered hroot hclosed).mem b hb.lt).mp ?_
  cases hstatus : (g.search root).status b with
  | untouched => exact absurd hstatus htouched
  | entered =>
      have hfirst := (search_explored hroot).1.entered b hstatus
      simp [Search.status, hb.lt] at hfirst
  | left => rfl

/-- Every edge leads on in the order, or back. -/
theorem search_leads {a t : Nat} (ha : g.Reaches (fun _ => false) [root] a) (ht : t ∈ g.succs a) :
    (a, t) ∈ (g.search root).retreating ∨ (g.search root).order.idxOf a < (g.search root).order.idxOf t :=
  have hordered := search_ordered hroot hclosed
  (hordered.ahead.lt hordered.nodup (mem_order hroot hclosed ha) ht).imp_right And.right

/-- Dominators come first. -/
theorem Dominates.idxOf_lt {a b : Nat} (hdom : g.Dominates root a b) (hb : g.Reaches (fun _ => false) [root] b)
    (hne : a ≠ b) : (g.search root).order.idxOf a < (g.search root).order.idxOf b :=
  have hordered := search_ordered hroot hclosed
  hordered.led.lt hordered.nodup (mem_order hroot hclosed (hdom.reaches hb)) (mem_order hroot hclosed hb) hdom hne

end Digraph

end JavaLift
