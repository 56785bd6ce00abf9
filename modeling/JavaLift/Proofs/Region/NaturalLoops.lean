import JavaLift.Proofs.Flow.Build
import JavaLift.Proofs.Flow.SearchOrder
import JavaLift.Proofs.Region.Loops

namespace JavaLift

variable {g : Graph} {l m : Loop}

theorem Digraph.Reaches.before {g : Digraph} {blocked : Nat → Bool} {roots roots' : List Nat} {b : Nat}
    (h : g.Reaches blocked roots b)
    (hroots : ∀ r ∈ roots, r < g.size → blocked r = false → g.Reaches blocked roots' r) :
    g.Reaches blocked roots' b := by
  induction h with
  | root hroot hlt hfree => exact hroots _ hroot hlt hfree
  | step _ hedge hlt hfree ih => exact .step ih hedge hlt hfree

namespace Graph

theorem turned_reaches {blocked : Nat → Bool} {a b : Nat} :
    g.turned.Reaches blocked [a] b ↔ g.digraph.Reaches blocked [b] a := by
  constructor
  · intro h
    induction h with
    | root hroot hlt hfree =>
        obtain rfl := List.mem_singleton.mp hroot
        exact .root hroot hlt hfree
    | step _ hedge hlt hfree ih =>
        refine ih.before fun r hr hrlt hrfree => ?_
        obtain rfl := List.mem_singleton.mp hr
        exact .step (.root List.mem_cons_self hlt hfree) (mem_turned.mp hedge).2 hrlt hrfree
  · intro h
    induction h with
    | root hroot hlt hfree =>
        obtain rfl := List.mem_singleton.mp hroot
        exact .root hroot hlt hfree
    | step hbefore hedge hlt hfree ih =>
        refine ih.before fun r hr hrlt hrfree => ?_
        obtain rfl := List.mem_singleton.mp hr
        exact .step (.root List.mem_cons_self hlt hfree) (mem_turned.mpr ⟨hlt, hedge⟩) hrlt hrfree

end Graph

/-- The loop of all edges to its header that come from blocks which the header dominates: the blocks from which such an
edge is come to without the header. Control enters it by the header only. -/
structure Loop.Exact (g : Graph) (l : Loop) : Prop where
  latches : ∀ a, a ∈ l.latches ↔ l.header ∈ g.exits a ∧ g.Dominates l.header a
  body : ∀ b, b ∈ l.body ↔ b = l.header ∨ ∃ a ∈ l.latches, g.digraph.Reaches (· == l.header) [b] a
  dominates : ∀ b ∈ l.body, g.Dominates l.header b
  enters : ∀ a, a ∉ l.body → ∀ b ∈ l.body, b ∈ g.exits a → b = l.header

/-- A block outside of a loop that is not needed on the way to its header is not needed on the way to any of its
blocks. -/
theorem Loop.Exact.reaches (h : l.Exact g) {t b : Nat} (ht : t ∉ l.body)
    (hheader : g.digraph.Reaches (· == t) [g.entry] l.header) (hreach : g.digraph.Reaches (fun _ => false) [g.entry] b)
    (hb : b ∈ l.body) : g.digraph.Reaches (· == t) [g.entry] b := by
  have hfree {n : Nat} (hn : n ∈ l.body) : (n == t) = false := beq_false_of_ne fun he => ht (he ▸ hn)
  induction hreach with
  | root hroot hlt _ => exact .root hroot hlt (hfree hb)
  | @step a b _ hedge hlt _ ih =>
      by_cases ha : a ∈ l.body
      · exact .step (ih ha) hedge hlt (hfree hb)
      · exact h.enters a ha b hb hedge ▸ hheader

/-- The second of two loops is inside the first one, or elsewhere. -/
structure Loop.Nests (l m : Loop) : Prop where
  headers : l.header ≠ m.header
  bodies : l.body.Disjoint m.body ∨ m.body ⊆ l.body ∧ l.header ∉ m.body

namespace Dominance

theorem headers_addBackEdge (loops : List Loop) (latch header : Nat) :
    (addBackEdge g loops latch header).map Loop.header =
      if header ∈ loops.map Loop.header then loops.map Loop.header else loops.map Loop.header ++ [header] := by
  have hany : (loops.any fun l => l.header == header) = true ↔ header ∈ loops.map Loop.header := by simp
  unfold addBackEdge
  simp only [hany]
  split
  · rw [List.map_map]
    refine List.map_congr_left fun l _ => ?_
    rw [Function.comp_apply]
    split
    · rename_i hsame
      exact (beq_iff_eq.mp hsame).symm
    · rfl
  · simp

section

variable {idom ipdom : Array (Option Nat)} (hrooted : g.Rooted) (hidom : g.HasIdoms idom)
include hrooted hidom

theorem headers_nodup : ((ofTables g idom ipdom).loops.map Loop.header).Nodup := by
  have hadded (edges : List (Nat × Nat)) (loops : List Loop) (h : (loops.map Loop.header).Nodup) :
      ((edges.foldl (fun loops e => addBackEdge g loops e.1 e.2) loops).map Loop.header).Nodup := by
    induction edges generalizing loops with
    | nil => exact h
    | cons e edges ih =>
        refine ih _ ?_
        rw [headers_addBackEdge]
        split
        · exact h
        · exact List.concat_eq_append ▸ h.concat ‹_›
  rw [loops_eq hrooted.entry_lt hrooted.reached hidom]
  exact ((List.mergeSort_perm _ _).map Loop.header).nodup_iff.mpr (hadded _ [] List.nodup_nil)

theorem loops_sorted : (ofTables g idom ipdom).loops.Pairwise fun l m =>
    (g.digraph.search g.entry).order.idxOf l.header ≤ (g.digraph.search g.entry).order.idxOf m.header := by
  rw [loops_eq hrooted.entry_lt hrooted.reached hidom]
  refine (List.pairwise_mergeSort ?_ ?_ _).imp of_decide_eq_true
  · intro l m n hlm hmn
    exact decide_eq_true ((of_decide_eq_true hlm).trans (of_decide_eq_true hmn))
  · intro l m
    simpa using Nat.le_total _ _

theorem exact_of_mem (hl : l ∈ (ofTables g idom ipdom).loops) : l.Exact g := by
  have hnatural := (loops_of hrooted.entry_lt hrooted.reached hidom ipdom).natural l hl
  have hback (a : Nat) : a ∈ l.latches ↔
      a < g.size ∧ l.header < g.size ∧ l.header ∈ g.exits a ∧ g.Dominates l.header a :=
    (hnatural.latches a).trans (mem_backEdges hrooted.entry_lt hrooted.reached)
  have hheader := hnatural.header_mem hrooted.entry_lt hrooted.reached
  refine ⟨fun a => ?_, fun b => ?_, fun b hb => hnatural.dominates hrooted.entry_lt hrooted.reached hb,
    fun a ha b hb hedge => ?_⟩
  · rw [hback]
    exact ⟨fun h => h.2.2, fun h => ⟨Graph.lt_of_mem_exits h.1, hrooted.exits_lt a _ h.1, h⟩⟩
  · rw [hnatural.body]
    simp only [Graph.turned_reaches]
    refine and_iff_right_of_imp ?_
    rintro (rfl | ⟨a, -, hreach⟩)
    · exact ((hnatural.body l.header).mp hheader).1
    · exact (Graph.turned_reaches.mpr hreach).lt
  · -- A block from which control goes on to another block of the body is in the body.
    by_contra hne
    obtain ⟨hlt, hway⟩ := (hnatural.body b).mp hb
    obtain ⟨latch, hlatch, hreach⟩ := hway.resolve_left hne
    have hsource := Graph.lt_of_mem_exits hedge
    have hother : a ≠ l.header := fun he => ha (he ▸ hheader)
    refine ha ((hnatural.body a).mpr ⟨hsource, .inr ⟨latch, hlatch, ?_⟩⟩)
    exact .step hreach (Graph.mem_turned.mpr ⟨hlt, hedge⟩) hsource (beq_false_of_ne hother)

theorem exists_loop {a t : Nat} (hedge : t ∈ g.exits a) (hdom : g.Dominates t a) :
    ∃ l ∈ (ofTables g idom ipdom).loops, l.header = t := by
  refine (loops_of hrooted.entry_lt hrooted.reached hidom ipdom).all (a, t)
    ((mem_backEdges hrooted.entry_lt hrooted.reached).mpr ?_)
  exact ⟨Graph.lt_of_mem_exits hedge, hrooted.exits_lt a t hedge, hedge, hdom⟩

theorem nests_of_mem (hl : l ∈ (ofTables g idom ipdom).loops) (hm : m ∈ (ofTables g idom ipdom).loops)
    (hne : l.header ≠ m.header) (hfirst : (g.digraph.search g.entry).order.idxOf l.header
      ≤ (g.digraph.search g.entry).order.idxOf m.header) : l.Nests m := by
  have hentry := hrooted.entry_lt
  have hreached := hrooted.reached
  have hlnat := (loops_of hentry hreached hidom ipdom).natural l hl
  have hmnat := (loops_of hentry hreached hidom ipdom).natural m hm
  refine ⟨hne, or_iff_not_imp_left.mpr fun hmeet => ?_⟩
  obtain ⟨b, hbl, hbm⟩ : ∃ b ∈ l.body, b ∈ m.body := by simpa [List.Disjoint] using hmeet
  have hlt : l.header < g.size := ((hlnat.body _).mp (hlnat.header_mem hentry hreached)).1
  have hpast : g.digraph.Reaches (· == m.header) [g.entry] l.header := by
    by_contra hdom
    have hbefore := Digraph.Dominates.idxOf_lt (g := g.digraph) hentry (fun a _ => hrooted.exits_lt a) hdom
      (hreached _ hlt) hne.symm
    exact absurd hfirst (Nat.not_le_of_lt hbefore)
  have hin : m.header ∈ l.body := by
    by_contra hout
    have hway := (exact_of_mem hrooted hidom hl).reaches hout hpast (hreached b ((hlnat.body b).mp hbl).1) hbl
    exact hmnat.dominates hentry hreached hbm hway
  exact ⟨hlnat.body_subset hentry hreached hmnat hin hne.symm,
    hlnat.header_not_mem hentry hreached hmnat hin hne.symm⟩

end

/-- Whatever table of immediate dominators is given, the loops of a graph are those of its edges back, each with all
edges back to its header. Of two loops the later one is part of the earlier one, or they have no block in common. The
table that is computed is one of these. -/
theorem loops_nest {insns : List Insn} {tries : List TryRange} {length : Nat}
    (h : Graph.build insns tries length = .ok g) :
    g.HasIdoms (Dominance.of g).idom ∧ ∀ idom ipdom, g.HasIdoms idom →
      (∀ l ∈ (ofTables g idom ipdom).loops, l.Exact g) ∧
      (∀ a, ∀ t ∈ g.exits a, g.Dominates t a → ∃ l ∈ (ofTables g idom ipdom).loops, l.header = t) ∧
      (ofTables g idom ipdom).loops.Pairwise Loop.Nests := by
  have hrooted := Graph.build_rooted h
  refine ⟨hasIdoms_of hrooted.reached, fun idom ipdom hidom => ⟨fun l hl => exact_of_mem hrooted hidom hl,
    fun a t => exists_loop hrooted hidom, ?_⟩⟩
  have hheaders : (ofTables g idom ipdom).loops.Pairwise fun l m => l.header ≠ m.header :=
    List.pairwise_map.mp (headers_nodup hrooted hidom)
  refine (hheaders.and (loops_sorted hrooted hidom)).imp_of_mem fun hl hm hboth => ?_
  exact nests_of_mem hrooted hidom hl hm hboth.1 hboth.2

/-- A block that repeats itself inside of a loop. -/
def repeatTwice : List Insn :=
  [.of .nop [] none 0, .of (.jumpIf .eq 1) [.ofReg 0] none 1, .of (.jumpIf .ne 0) [.ofReg 0] none 2, .of .ret [] none 3]

theorem loops_nest_repeatTwice :
    ∃ g outer inner, Graph.build repeatTwice [] 4 = .ok g ∧ (Dominance.of g).loops = [outer, inner] ∧
      (outer.header, outer.body, outer.latches) = (0, [0, 1, 2], [2]) ∧
      (inner.header, inner.body, inner.latches) = (1, [1], [1]) ∧ outer.Exact g ∧ inner.Exact g ∧
      outer.Nests inner := by
  obtain ⟨g, hbuild, hloops⟩ : ∃ g, Graph.build repeatTwice [] 4 = .ok g ∧
      (Dominance.of g).loops.map (fun l => (l.header, l.body, l.latches)) = [(0, [0, 1, 2], [2]), (1, [1], [1])] :=
    ⟨_, rfl, by cbv⟩
  obtain ⟨outer, rest, hfirst, houter, hrest⟩ := List.map_eq_cons_iff.mp hloops
  obtain ⟨inner, rfl, hinner⟩ := List.map_eq_singleton_iff.mp hrest
  obtain ⟨hidom, hall⟩ := loops_nest hbuild
  obtain ⟨hexact, -, hnests⟩ := hall _ (Dominance.of g).ipdom hidom
  change ∀ l ∈ (Dominance.of g).loops, _ at hexact
  change (Dominance.of g).loops.Pairwise _ at hnests
  rw [hfirst] at hexact hnests
  exact ⟨g, outer, inner, hbuild, hfirst, houter, hinner, hexact outer (by simp), hexact inner (by simp),
    List.rel_of_pairwise_cons hnests List.mem_cons_self⟩

end Dominance

end JavaLift
