import JavaLift.Proofs.Flow.Build
import JavaLift.Proofs.Flow.Dominators
import JavaLift.Proofs.Flow.Search
import JavaLift.Proofs.Region.Frames

namespace JavaLift

variable {g : Graph} {l m : Loop} {edges : List (Nat × Nat)}

namespace Graph

def turned (g : Graph) : Digraph := ⟨g.size, fun b => g.preds b ++ g.exceptionPreds b⟩

theorem mem_turned {a b : Nat} : a ∈ g.turned.succs b ↔ b < g.size ∧ b ∈ g.exits a := by
  rw [turned, List.mem_append, mem_preds, mem_exceptionPreds, exits, List.mem_append, and_or_left]

theorem reaches_of_turned {blocked : Nat → Bool} {roots : List Nat} {a b : Nat} (h : g.turned.Reaches blocked [a] b)
    (hb : g.digraph.Reaches blocked roots b) : g.digraph.Reaches blocked roots a := by
  induction h with
  | root hroot _ _ =>
      obtain rfl := List.mem_singleton.mp hroot
      exact hb
  | step h hedge _ _ ih => exact ih (.step hb (mem_turned.mp hedge).2 h.lt h.free)

end Graph

namespace Dominance

theorem mem_loopBody {latch header b : Nat} :
    b ∈ loopBody g latch header ↔ b < g.size ∧ (b = header ∨ g.turned.Reaches (· == header) [latch] b) := by
  simp only [loopBody, List.mem_filter, List.mem_range, Bool.or_eq_true, beq_iff_eq]
  rw [Digraph.has_reach, Digraph.reaches_tabulate]
  rfl

structure Natural (g : Graph) (edges : List (Nat × Nat)) (l : Loop) : Prop where
  latches : ∀ a, a ∈ l.latches ↔ (a, l.header) ∈ edges
  body : ∀ b, b ∈ l.body ↔ b < g.size ∧ (b = l.header ∨ ∃ a ∈ l.latches, g.turned.Reaches (· == l.header) [a] b)
  back : ∃ a, (a, l.header) ∈ edges

structure LoopsOf (g : Graph) (edges : List (Nat × Nat)) (loops : List Loop) : Prop where
  natural : ∀ l ∈ loops, Natural g edges l
  all : ∀ e ∈ edges, ∃ l ∈ loops, l.header = e.2

theorem LoopsOf.add {loops : List Loop} (h : LoopsOf g edges loops) (latch header : Nat) :
    LoopsOf g (edges ++ [(latch, header)]) (addBackEdge g loops latch header) := by
  have hother {l : Loop} (hl : l ∈ loops) (hne : l.header ≠ header) : Natural g (edges ++ [(latch, header)]) l := by
    obtain ⟨hlatches, hbody, a, ha⟩ := h.natural l hl
    refine ⟨fun a => ?_, hbody, a, List.mem_append_left _ ha⟩
    simp [hlatches, hne]
  unfold addBackEdge
  simp only
  split
  · rename_i hany
    obtain ⟨l', hl', hheader⟩ : ∃ l ∈ loops, l.header = header := by simpa using hany
    refine ⟨fun k hk => ?_, fun e he => ?_⟩
    · obtain ⟨l, hl, rfl⟩ := List.mem_map.mp hk
      split
      · rename_i hsame
        obtain rfl : l.header = header := by simpa using hsame
        obtain ⟨hlatches, hbody, a, ha⟩ := h.natural l hl
        refine ⟨fun a => by simp [hlatches], fun b => ?_, a, List.mem_append_left _ ha⟩
        simp only [List.mem_filter, List.mem_range, Bool.or_eq_true, List.contains_iff_mem, hbody, mem_loopBody,
          List.mem_append, List.mem_singleton, or_and_right, exists_or, exists_eq_left]
        grind
      · rename_i hne
        exact hother hl (by simpa using hne)
    · have hheaders (l : Loop) (hl : l ∈ loops) : ∃ k ∈ loops.map fun l => if l.header == header then
          ⟨header, (List.range g.size).filter fun b => l.body.contains b || (loopBody g latch header).contains b,
            l.latches ++ [latch]⟩ else l, k.header = l.header := by
        refine ⟨_, List.mem_map_of_mem hl, ?_⟩
        split
        · rename_i hsame
          exact (by simpa using hsame : l.header = header).symm
        · rfl
      rcases List.mem_append.mp he with he | he
      · obtain ⟨l, hl, hle⟩ := h.all e he
        exact hle ▸ hheaders l hl
      · obtain rfl := List.mem_singleton.mp he
        exact hheader ▸ hheaders l' hl'
  · rename_i hnone
    have hnew : ∀ l ∈ loops, l.header ≠ header := by simpa using hnone
    refine ⟨fun l hl => ?_, fun e he => ?_⟩
    · rcases List.mem_append.mp hl with hl | hl
      · exact hother hl (hnew l hl)
      · obtain rfl := List.mem_singleton.mp hl
        refine ⟨fun a => ?_, fun b => by simp [mem_loopBody], latch, by simp⟩
        have hfirst : (a, header) ∉ edges := fun ha => by
          obtain ⟨l, hl, hle⟩ := h.all _ ha
          exact hnew l hl hle
        simp [hfirst]
    · rcases List.mem_append.mp he with he | he
      · obtain ⟨l, hl, hle⟩ := h.all e he
        exact ⟨l, List.mem_append_left _ hl, hle⟩
      · obtain rfl := List.mem_singleton.mp he
        exact ⟨_, List.mem_append_right _ (List.mem_singleton.mpr rfl), rfl⟩

theorem LoopsOf.addAll {loops : List Loop} (h : LoopsOf g edges loops) (es : List (Nat × Nat)) :
    LoopsOf g (edges ++ es) (es.foldl (fun loops e => addBackEdge g loops e.1 e.2) loops) := by
  induction es generalizing edges loops with
  | nil => simpa using h
  | cons e es ih => simpa using ih (h.add e.1 e.2)

def backEdges (g : Graph) : List (Nat × Nat) :=
  (g.digraph.search g.entry).retreating.filter fun e => (g.digraph.dominators g.entry).dominates e.2 e.1

section

variable (hentry : g.entry < g.size) (hreached : ∀ b < g.size, g.digraph.Reaches (fun _ => false) [g.entry] b)
include hentry hreached

theorem loops_eq {idom : Array (Option Nat)} (hidom : g.HasIdoms idom) (ipdom : Array (Option Nat)) :
    (ofTables g idom ipdom).loops = ((backEdges g).foldl (fun loops e => addBackEdge g loops e.1 e.2) []).mergeSort
      fun l m => (g.digraph.search g.entry).order.idxOf l.header ≤ (g.digraph.search g.entry).order.idxOf m.header := by
  have hback : (g.digraph.search g.entry).retreating.filter (fun e => climbs idom e.2 idom.size e.1) = backEdges g := by
    refine List.filter_congr fun e he => ?_
    obtain ⟨-, ha, ht⟩ := Digraph.retreating_edge hentry he
    rw [Bool.eq_iff_iff, Digraph.dominators_dominates ht (hreached _ ha)]
    exact ofTables_dominates_iff hidom ipdom hentry ht (hreached _ ha)
  rw [← hback]
  simp only [ofTables, List.partition_eq_filter_filter]

theorem loops_of {idom : Array (Option Nat)} (hidom : g.HasIdoms idom) (ipdom : Array (Option Nat)) :
    LoopsOf g (backEdges g) (ofTables g idom ipdom).loops := by
  have hnone : LoopsOf g [] [] := ⟨nofun, nofun⟩
  have hall := hnone.addAll (backEdges g)
  rw [loops_eq hentry hreached hidom ipdom]
  refine ⟨fun l hl => hall.natural l (List.mem_mergeSort.mp hl), fun e he => ?_⟩
  exact (hall.all e he).imp fun l hl => ⟨List.mem_mergeSort.mpr hl.1, hl.2⟩

theorem mem_backEdges {a t : Nat} : (a, t) ∈ backEdges g ↔
    a < g.size ∧ t < g.size ∧ t ∈ g.exits a ∧ ¬ g.digraph.Reaches (· == t) [g.entry] a := by
  unfold backEdges
  rw [List.mem_filter]
  constructor
  · rintro ⟨hretreating, hdom⟩
    obtain ⟨hedge, ha, ht⟩ := Digraph.retreating_edge hentry hretreating
    refine ⟨ha, ht, hedge, fun hreach => ?_⟩
    rcases (Digraph.dominates_iff ht (hreached a ha)).mp hdom with he | hnone
    · simpa [show t = a from he] using hreach.free
    · exact hnone hreach
  · rintro ⟨ha, ht, hedge, hnone⟩
    exact ⟨Digraph.mem_retreating hentry (hreached a ha) hedge hnone,
      (Digraph.dominates_iff ht (hreached a ha)).mpr (.inr hnone)⟩

namespace Natural

theorem dominates (h : Natural g (backEdges g) l) {b : Nat} (hb : b ∈ l.body) :
    ¬ g.digraph.Reaches (· == l.header) [g.entry] b := by
  intro hreach
  obtain ⟨-, rfl | ⟨a, ha, hturned⟩⟩ := (h.body b).mp hb
  · simpa using hreach.free
  · -- The way would lead on to a latch without the header, which dominates it.
    exact ((mem_backEdges hentry hreached).mp ((h.latches a).mp ha)).2.2.2 (Graph.reaches_of_turned hturned hreach)

theorem header_mem (h : Natural g (backEdges g) l) : l.header ∈ l.body := by
  obtain ⟨a, ha⟩ := h.back
  exact (h.body _).mpr ⟨((mem_backEdges hentry hreached).mp ha).2.1, .inl rfl⟩

theorem latch_mem (h : Natural g (backEdges g) l) {b : Nat} (hb : b ∈ l.latches) : b ∈ l.body := by
  obtain ⟨hlt, -⟩ := (mem_backEdges hentry hreached).mp ((h.latches b).mp hb)
  refine (h.body b).mpr ⟨hlt, or_iff_not_imp_left.mpr fun hne => ⟨b, hb, ?_⟩⟩
  exact .root List.mem_cons_self hlt (by simpa using hne)

theorem back_mem (h : Natural g (backEdges g) l) {b : Nat} (hb : b ∈ l.body) (hedge : l.header ∈ g.exits b) :
    b ∈ l.latches := by
  obtain ⟨hlt, -⟩ := (h.body b).mp hb
  obtain ⟨a, ha⟩ := h.back
  refine (h.latches b).mpr ((mem_backEdges hentry hreached).mpr ⟨hlt, ?_, hedge, h.dominates hentry hreached hb⟩)
  exact ((mem_backEdges hentry hreached).mp ha).2.1

/-- The header of a loop is not in a loop whose header is in it. -/
theorem header_not_mem (hl : Natural g (backEdges g) l) (hm : Natural g (backEdges g) m) (hin : m.header ∈ l.body)
    (hne : m.header ≠ l.header) : l.header ∉ m.body := by
  intro hmem
  rcases (hreached m.header ((hl.body _).mp hin).1).one_first (Ne.symm hne) with hreach | hreach
  · exact hm.dominates hentry hreached hmem hreach
  · exact hl.dominates hentry hreached hin hreach

theorem body_subset (hl : Natural g (backEdges g) l) (hm : Natural g (backEdges g) m) (hin : m.header ∈ l.body)
    (hne : m.header ≠ l.header) : m.body ⊆ l.body := by
  have hout := hl.header_not_mem hentry hreached hm hin hne
  obtain ⟨-, hheader⟩ := (hl.body _).mp hin
  obtain ⟨latch, hlatch, hway⟩ := hheader.resolve_left hne
  intro b hb
  obtain ⟨hlt, rfl | ⟨a, ha, hturned⟩⟩ := (hm.body b).mp hb
  · exact hin
  refine (hl.body b).mpr ⟨hlt, .inr ⟨latch, hlatch, ?_⟩⟩
  -- All on the way from the latch of the inner loop is in it, so the outer header is not.
  have hfree {c : Nat} (hc : g.turned.Reaches (· == m.header) [a] c) : (c == l.header) = false := by
    have hmem : c ∈ m.body := (hm.body c).mpr ⟨hc.lt, .inr ⟨a, ha, hc⟩⟩
    exact beq_false_of_ne fun he => hout (he ▸ hmem)
  induction hturned with
  | root hroot hlt hnot =>
      obtain rfl := List.mem_singleton.mp hroot
      obtain ⟨-, -, hedge, -⟩ := (mem_backEdges hentry hreached).mp ((hm.latches _).mp ha)
      exact .step hway (Graph.mem_turned.mpr ⟨hway.lt, hedge⟩) hlt (hfree (.root hroot hlt hnot))
  | step hbefore hedge hlt hnot ih =>
      have hmem := (hm.body _).mpr ⟨hbefore.lt, .inr ⟨a, ha, hbefore⟩⟩
      exact .step (ih hmem hbefore.lt) hedge hlt (hfree (.step hbefore hedge hlt hnot))

end Natural

end

end Dominance

end JavaLift
