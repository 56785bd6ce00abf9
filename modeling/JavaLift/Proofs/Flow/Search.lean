import JavaLift.Flow.Digraph
import JavaLift.Proofs.Flow.Reach

namespace JavaLift

namespace Search

variable {g : Digraph} {root b : Nat} {s s' s'' : Search}

def untouched (s : Search) : Nat := ((Finset.range s.visits.size).filter fun b => s.status b = .untouched).card

theorem lt_of_untouched (h : s.status b = .untouched) : b < s.visits.size := by
  by_contra hlt
  simp [status, Array.getElem?_eq_none (Nat.le_of_not_lt hlt)] at h

theorem status_set {visits : Array Visit} {v : Visit} {order : List Nat} {retreating : List (Nat × Nat)}
    (hb : b < visits.size)
    (c : Nat) : status ⟨visits.setIfInBounds b v, order, retreating⟩ c =
    if b = c then v else (visits[c]?).getD .left := by
  rw [status, Array.getElem?_setIfInBounds]
  by_cases h : b = c
  · simp [h, h ▸ hb]
  · simp [h]

theorem size_enter (s : Search) (b : Nat) : (s.enter b).visits.size = s.visits.size := by simp [enter]

theorem status_enter (hb : b < s.visits.size) (c : Nat) :
    (s.enter b).status c = if b = c then .entered else s.status c :=
  status_set hb c

theorem status_leave (hb : b < s.visits.size) (c : Nat) : (s.leave b).status c = if b = c then .left else s.status c :=
  status_set hb c

/-- What a part of the search adds. An edge that does not go back has a source to which a way leads past its target. -/
structure Explored (g : Digraph) (root : Nat) (s s' : Search) : Prop where
  size : s'.visits.size = s.visits.size
  kept : ∀ b, s.status b ≠ .untouched → s'.status b = s.status b
  entered : ∀ b, s'.status b = .entered → s.status b = .entered
  closed : ∀ a, s.status a = .untouched → s'.status a ≠ .untouched → ∀ t ∈ g.succs a, s'.status t ≠ .untouched
  found : ∀ a, s.status a = .untouched → s'.status a ≠ .untouched → ∀ t ∈ g.succs a,
    (a, t) ∈ s'.retreating ∨ g.Reaches (· == t) [root] a
  grows : s.retreating ⊆ s'.retreating
  edges : ∀ e ∈ s'.retreating, e ∈ s.retreating ∨ e.2 ∈ g.succs e.1 ∧ e.1 < s.visits.size ∧ e.2 < s.visits.size

namespace Explored

theorem refl (s : Search) : Explored g root s s :=
  ⟨rfl, fun _ _ => rfl, fun _ h => h, fun _ h h' => absurd h h', fun _ h h' => absurd h h', fun _ h => h,
    fun _ h => .inl h⟩

theorem touched (h : Explored g root s s') (hb : s.status b ≠ .untouched) : s'.status b ≠ .untouched :=
  h.kept b hb ▸ hb

theorem trans (h : Explored g root s s') (h' : Explored g root s' s'') : Explored g root s s'' := by
  refine ⟨h'.size.trans h.size, fun b hb => ?_, fun b hb => h.entered b (h'.entered b hb), fun a ha ha' t ht => ?_,
    fun a ha ha' t ht => ?_, fun e he => h'.grows (h.grows he), fun e he => ?_⟩
  · rw [h'.kept b (h.touched hb), h.kept b hb]
  · by_cases hmid : s'.status a = .untouched
    · exact h'.closed a hmid ha' t ht
    · exact h'.touched (h.closed a ha hmid t ht)
  · by_cases hmid : s'.status a = .untouched
    · exact h'.found a hmid ha' t ht
    · exact (h.found a ha hmid t ht).imp_left fun he => h'.grows he
  · rcases h'.edges e he with he | he
    · exact h.edges e he
    · exact .inr (h.size ▸ he)

theorem untouched_le (h : Explored g root s s') : untouched s' ≤ untouched s := by
  refine Finset.card_le_card fun b hb => ?_
  obtain ⟨hlt, hb⟩ := Finset.mem_filter.mp hb
  refine Finset.mem_filter.mpr ⟨h.size ▸ hlt, ?_⟩
  by_contra hne
  exact h.touched hne hb

end Explored

/-- What the search from the successors of a node adds, together with the node itself, which is entered before and left
afterwards. -/
theorem Explored.visit (h : Explored g root (s.enter b) s') (hb : s.status b = .untouched)
    (hedges : ∀ t ∈ g.succs b, s'.status t ≠ .untouched ∧
      ((b, t) ∈ s'.retreating ∨ g.Reaches (· == t) [root] b)) :
    Explored g root s (s'.leave b) ∧ (s'.leave b).status b ≠ .untouched := by
  have hlt := lt_of_untouched hb
  have hlt' : b < s'.visits.size := by
    rwa [h.size, size_enter]
  have hstart (a : Nat) : (s.enter b).status a = if b = a then .entered else s.status a := status_enter hlt a
  have hend (a : Nat) : (s'.leave b).status a = if b = a then .left else s'.status a := status_leave hlt' a
  have hbefore {a : Nat} (ha : s.status a = .untouched) (hne : b ≠ a) : (s.enter b).status a = .untouched := by
    rwa [hstart, if_neg hne]
  have hafter {a : Nat} (ha : (s'.leave b).status a ≠ .untouched) (hne : b ≠ a) : s'.status a ≠ .untouched := by
    rwa [hend, if_neg hne] at ha
  have htouched {a : Nat} (ha : s'.status a ≠ .untouched) : (s'.leave b).status a ≠ .untouched := by
    rw [hend]
    split
    · exact nofun
    · exact ha
  -- The search of the successors answers for all nodes except the one that is left now.
  refine ⟨⟨?_, fun a ha => ?_, fun a ha => ?_, fun a ha ha' t ht => ?_, fun a ha ha' t ht => ?_, h.grows,
    fun e he => ?_⟩, ?_⟩
  · simpa [leave, enter] using h.size
  · have hne : b ≠ a := fun h => ha (h ▸ hb)
    rw [hend, if_neg hne, h.kept a (by rwa [hstart, if_neg hne]), hstart, if_neg hne]
  · rw [hend] at ha
    split at ha
    · cases ha
    · rename_i hne
      have := h.entered a ha
      rwa [hstart, if_neg hne] at this
  · by_cases hne : b = a
    · subst hne
      exact htouched (hedges t ht).1
    · exact htouched (h.closed a (hbefore ha hne) (hafter ha' hne) t ht)
  · by_cases hne : b = a
    · subst hne
      exact (hedges t ht).2
    · exact h.found a (hbefore ha hne) (hafter ha' hne) t ht
  · rw [← size_enter s b]
    exact h.edges e he
  · simp [hend]

theorem untouched_enter (hb : s.status b = .untouched) : untouched (s.enter b) < untouched s := by
  have hlt := lt_of_untouched hb
  refine Finset.card_lt_card ((Finset.ssubset_iff_of_subset fun c hc => ?_).mpr ⟨b, ?_, fun hc => ?_⟩)
  · obtain ⟨hc, hfree⟩ := Finset.mem_filter.mp hc
    rw [status_enter hlt] at hfree
    split at hfree
    · cases hfree
    · exact Finset.mem_filter.mpr ⟨by rwa [size_enter] at hc, hfree⟩
  · exact Finset.mem_filter.mpr ⟨Finset.mem_range.mpr hlt, hb⟩
  · have hfree := (Finset.mem_filter.mp hc).2
    simp [status_enter hlt] at hfree

/-- All nodes that a way to the node has to pass have been entered. -/
def Stacked (g : Digraph) (root : Nat) (s : Search) (b : Nat) : Prop :=
  ∀ t, s.status t ≠ .entered → t ≠ b → g.Reaches (· == t) [root] b

def follows (g : Digraph) (depth b : Nat) (s : Search) (t : Nat) : Search :=
  match s.status t with
  | .untouched => run g.succs depth s t
  | .entered => { s with retreating := s.retreating ++ [(b, t)] }
  | .left => s

theorem run_succ (depth : Nat) (s : Search) (b : Nat) :
    run g.succs (depth + 1) s b = ((g.succs b).foldl (follows g depth b) (s.enter b)).leave b := rfl

/-- A search from a node that has not been touched explores it. -/
def Explores (g : Digraph) (root depth : Nat) : Prop :=
  ∀ s b, s.visits.size = g.size → s.status b = .untouched → untouched s ≤ depth → Stacked g root s b →
    Explored g root s (run g.succs depth s b) ∧ (run g.succs depth s b).status b ≠ .untouched

section

variable {depth : Nat} (hrun : Explores g root depth)
include hrun

theorem follows_explored {t : Nat} (hsize : s.visits.size = g.size) (hdepth : untouched s ≤ depth)
    (hlt : b < g.size) (hstack : ∀ t, s.status t ≠ .entered → g.Reaches (· == t) [root] b) (ht : t ∈ g.succs b) :
    Explored g root s (follows g depth b s t) ∧ (follows g depth b s t).status t ≠ .untouched ∧
      ((b, t) ∈ (follows g depth b s t).retreating ∨ g.Reaches (· == t) [root] b) := by
  cases hstatus : s.status t with
  | untouched =>
      have hstacked : Stacked g root s t := fun u hu hne =>
        .step (hstack u hu) ht (hsize ▸ lt_of_untouched hstatus) (by simpa using hne.symm)
      obtain ⟨hexplored, htouched⟩ := hrun s t hsize hstatus hdepth hstacked
      simp only [follows, hstatus]
      exact ⟨hexplored, htouched, .inr (hstack t (by simp [hstatus]))⟩
  | entered =>
      have hin : t < s.visits.size := by
        by_contra hout
        simp [status, Array.getElem?_eq_none (Nat.le_of_not_lt hout)] at hstatus
      simp only [follows, hstatus]
      refine ⟨⟨rfl, fun _ _ => rfl, fun _ h => h, fun _ h h' => absurd h h', fun _ h h' => absurd h h', by simp, ?_⟩,
        ?_, by simp⟩
      · intro e he
        rcases List.mem_append.mp he with he | he
        · exact .inl he
        · obtain rfl := List.mem_singleton.mp he
          exact .inr ⟨ht, hsize ▸ hlt, hin⟩
      · exact fun h => nomatch hstatus.symm.trans h
  | left =>
      simp only [follows, hstatus]
      exact ⟨.refl s, by simp, .inr (hstack t (by simp [hstatus]))⟩

theorem foldl_explored (ts : List Nat) (hsize : s.visits.size = g.size) (hdepth : untouched s ≤ depth)
    (hlt : b < g.size) (hstack : ∀ t, s.status t ≠ .entered → g.Reaches (· == t) [root] b)
    (hts : ∀ t ∈ ts, t ∈ g.succs b) :
    Explored g root s (ts.foldl (follows g depth b) s) ∧
      ∀ t ∈ ts, (ts.foldl (follows g depth b) s).status t ≠ .untouched ∧
      ((b, t) ∈ (ts.foldl (follows g depth b) s).retreating ∨ g.Reaches (· == t) [root] b) := by
  induction ts generalizing s with
  | nil => exact ⟨.refl s, by simp⟩
  | cons t ts ih =>
      rw [List.forall_mem_cons] at hts
      obtain ⟨hfirst, htouched, hedge⟩ := follows_explored hrun hsize hdepth hlt hstack hts.1
      have hstack' (u : Nat) (hu : (follows g depth b s t).status u ≠ .entered) : g.Reaches (· == u) [root] b :=
        hstack u fun h => hu (by rw [hfirst.kept u (by simp [h]), h])
      obtain ⟨hmore, hall⟩ := ih (hfirst.size.trans hsize) (hfirst.untouched_le.trans hdepth) hstack' hts.2
      refine ⟨hfirst.trans hmore, List.forall_mem_cons.mpr ⟨⟨hmore.touched htouched, ?_⟩, hall⟩⟩
      exact hedge.imp_left fun he => hmore.grows he

end

theorem run_explores (g : Digraph) (root depth : Nat) : Explores g root depth := by
  induction depth with
  | zero =>
      intro s b _ hb hdepth _
      have hpos : 0 < untouched s :=
        Finset.card_pos.mpr ⟨b, Finset.mem_filter.mpr ⟨Finset.mem_range.mpr (lt_of_untouched hb), hb⟩⟩
      omega
  | succ depth ih =>
      intro s b hsize hb hdepth hstack
      have hlt := lt_of_untouched hb
      have hstack' (t : Nat) (ht : (s.enter b).status t ≠ .entered) : g.Reaches (· == t) [root] b := by
        rw [status_enter hlt] at ht
        split at ht
        · exact absurd rfl ht
        · exact hstack t ht (Ne.symm ‹_›)
      have hless := untouched_enter hb
      obtain ⟨hinner, hedges⟩ := foldl_explored ih (g.succs b) (s := s.enter b) (b := b) ((size_enter s b).trans hsize)
        (by omega) (hsize ▸ hlt) hstack' fun _ h => h
      rw [run_succ]
      exact hinner.visit hb hedges

end Search

namespace Digraph

variable {g : Digraph} {root : Nat} (hroot : root < g.size)
include hroot

theorem search_explored : Search.Explored g root ⟨Array.replicate g.size .untouched, [], []⟩ (g.search root) ∧
    (g.search root).status root ≠ .untouched := by
  refine Search.run_explores g root g.size _ root (by simp) ?_ ?_ fun t _ hne => .root (by simp) hroot ?_
  · simp [Search.status, hroot]
  · exact (Finset.card_filter_le _ _).trans (by simp)
  · simpa using hne.symm

theorem search_touched {b : Nat} (hb : g.Reaches (fun _ => false) [root] b) :
    (g.search root).status b ≠ .untouched := by
  obtain ⟨hexplored, hstart⟩ := search_explored hroot
  induction hb with
  | root hb _ _ =>
      obtain rfl := List.mem_singleton.mp hb
      exact hstart
  | step h hedge _ _ ih =>
      exact hexplored.closed _ (by simp [Search.status, h.lt]) ih _ hedge

/-- Every edge to a node that dominates its source goes back. -/
theorem mem_retreating {a t : Nat} (ha : g.Reaches (fun _ => false) [root] a) (ht : t ∈ g.succs a)
    (hdom : ¬ g.Reaches (· == t) [root] a) : (a, t) ∈ (g.search root).retreating :=
  ((search_explored hroot).1.found a (by simp [Search.status, ha.lt]) (search_touched hroot ha) t ht).resolve_right hdom

theorem retreating_edge {e : Nat × Nat} (he : e ∈ (g.search root).retreating) :
    e.2 ∈ g.succs e.1 ∧ e.1 < g.size ∧ e.2 < g.size := by
  simpa using (search_explored hroot).1.edges e he

end Digraph

end JavaLift
