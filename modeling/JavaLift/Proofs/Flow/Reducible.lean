import JavaLift.Proofs.Flow.Build
import JavaLift.Proofs.Flow.Dominators
import JavaLift.Proofs.Flow.SearchOrder

namespace JavaLift

namespace Graph

/-- A closed way along edges of both kinds. -/
structure IsCycle (g : Graph) (c : Cycle Nat) : Prop where
  ne_nil : c ≠ Cycle.nil
  chain : c.Chain fun a b => b ∈ g.exits a

/-- Whoever enters the cycle comes to one of its blocks first, which does not depend on the way. -/
def OneEntry (g : Graph) (c : Cycle Nat) : Prop := ∃ d ∈ c, ∀ b ∈ c, g.Dominates d b

/-- The same edges, in whatever order, of whichever kind and however often. -/
structure SameEdges (g g' : Graph) : Prop where
  size : g'.size = g.size
  entry : g'.entry = g.entry
  exits : ∀ a b, b ∈ g'.exits a ↔ b ∈ g.exits a

namespace SameEdges

variable {g g' : Graph} (h : g.SameEdges g')
include h

theorem symm : g'.SameEdges g := ⟨h.size.symm, h.entry.symm, fun a b => (h.exits a b).symm⟩

theorem reaches {blocked : Nat → Bool} {roots : List Nat} {b : Nat} (hb : g.digraph.Reaches blocked roots b) :
    g'.digraph.Reaches blocked roots b := by
  induction hb with
  | root hroot hlt hfree => exact .root hroot (hlt.trans_eq h.size.symm) hfree
  | step _ hedge hlt hfree ih => exact .step ih ((h.exits _ _).mpr hedge) (hlt.trans_eq h.size.symm) hfree

theorem rooted (hrooted : g.Rooted) : g'.Rooted := by
  refine ⟨?_, fun b n hn => ?_, fun b hb => ?_⟩
  · rw [h.entry, h.size]
    exact hrooted.entry_lt
  · rw [h.size]
    exact hrooted.exits_lt b n ((h.exits b n).mp hn)
  · rw [h.entry]
    exact h.reaches (hrooted.reached b (h.size ▸ hb))

theorem isCycle {c : Cycle Nat} (hc : g.IsCycle c) : g'.IsCycle c :=
  ⟨hc.ne_nil, hc.chain.imp fun a b hedge => (h.exits a b).mpr hedge⟩

theorem dominates {a b : Nat} (hdom : g.Dominates a b) : g'.Dominates a b := fun hreach =>
  hdom (h.symm.reaches (h.entry ▸ hreach))

theorem oneEntry {c : Cycle Nat} (hone : g.OneEntry c) : g'.OneEntry c :=
  hone.imp fun _ hd => ⟨hd.1, fun b hb => h.dominates (hd.2 b hb)⟩

end SameEdges

def otherOrder (g : Graph) : Graph :=
  { g with blocks := g.blocks.map fun block => { block with succs := block.succs.reverse } }

theorem sameEdges_otherOrder (g : Graph) : g.SameEdges g.otherOrder := by
  refine ⟨by simp [otherOrder, size], rfl, fun a b => ?_⟩
  have hblock : g.otherOrder.block a = { g.block a with succs := (g.block a).succs.reverse } := by
    simp only [block, otherOrder, Array.getElem?_map]
    cases g.blocks[a]? <;> rfl
  simp [exits, succs, handlers, hblock]

variable {g : Graph} {a b h : Nat}

theorem Dominates.back (hdom : g.Dominates a b) (hedge : b ∈ g.exits h) (hlt : b < g.size) (hne : b ≠ a) :
    g.Dominates a h := fun hreach => hdom (.step hreach hedge hlt (beq_false_of_ne hne))

/-- Going back along edges, a block dominates all up to the source of an edge to it. -/
theorem dominates_along (hexits : ∀ b, ∀ n ∈ g.exits b, n < g.size) {xs : List Nat}
    (hchain : (xs ++ [h]).IsChain fun a b => b ∈ g.exits a) (hback : ∀ x ∈ xs, h ∈ g.exits x → g.Dominates h x) :
    ∀ x ∈ xs, g.Dominates h x := by
  induction xs with
  | nil => exact nofun
  | cons x xs ih =>
      rw [List.forall_mem_cons] at hback
      have hrest := ih hchain.tail hback.2
      refine List.forall_mem_cons.mpr ⟨?_, hrest⟩
      cases xs with
      | nil => exact hback.1 hchain.rel
      | cons y xs =>
          have hedge : y ∈ g.exits x := hchain.rel
          by_cases hy : y = h
          · exact hback.1 (hy ▸ hedge)
          · exact (hrest y List.mem_cons_self).back hedge (hexits x y hedge) hy

/-- An edge back to a block of the way closes a cycle with the part of the way from there on. -/
theorem isCycle_of_trail {t : Nat} {inner outer : List Nat} (htrail : g.digraph.Trail g.entry (inner ++ t :: outer))
    (hlast : (inner ++ [t]).head? = some a) (hedge : t ∈ g.exits a) :
    g.IsCycle (t :: inner.reverse : List Nat) ∧ (t :: inner.reverse).Nodup := by
  have hround : (inner ++ [t]).reverse = t :: inner.reverse := by simp
  have hsplit : inner ++ t :: outer = (inner ++ [t]) ++ outer := by simp
  rw [hsplit] at htrail
  have hback : (inner ++ [t]).IsChain fun b a => b ∈ g.exits a := htrail.edges.left_of_append
  refine ⟨⟨(Cycle.coe_eq_nil _).not.mpr (List.cons_ne_nil _ _), ?_⟩, ?_⟩
  · rw [Cycle.chain_coe_cons, ← List.cons_append, ← hround]
    refine List.isChain_append.mpr ⟨List.isChain_reverse.mpr hback, List.isChain_singleton t, ?_⟩
    intro x hx y hy
    rw [List.getLast?_reverse, hlast] at hx
    obtain rfl := Option.some.inj hx
    obtain rfl := Option.some.inj hy
    exact hedge
  · rw [← hround, List.nodup_reverse]
    exact htrail.nodup.of_append_left

end Graph

namespace Dominance

variable {g : Graph} {idom ipdom : Array (Option Nat)}

theorem irreducible_eq_false (hrooted : g.Rooted) (hidom : g.HasIdoms idom) :
    (ofTables g idom ipdom).irreducible = false ↔
      ∀ e ∈ (g.digraph.search g.entry).retreating, g.Dominates e.2 e.1 := by
  have hflag : (ofTables g idom ipdom).irreducible = false ↔ ∀ e ∈ (g.digraph.search g.entry).retreating,
      (ofTables g idom ipdom).dominates e.2 e.1 = true := by
    simp [ofTables, List.partition_eq_filter_filter, dominates]
  rw [hflag]
  refine forall₂_congr fun e he => ?_
  obtain ⟨-, ha, ht⟩ := Digraph.retreating_edge hrooted.entry_lt he
  exact ofTables_dominates_iff hidom ipdom hrooted.entry_lt ht (hrooted.reached _ ha)

/-- The block of a cycle that the search has left last is where the cycle is entered: all edges of the cycle to this
block go back. -/
theorem oneEntry_of_reducible (hrooted : g.Rooted) (hidom : g.HasIdoms idom)
    (hred : (ofTables g idom ipdom).irreducible = false) {c : Cycle Nat} (hc : g.IsCycle c) : g.OneEntry c := by
  obtain ⟨hne, hchain⟩ := hc
  induction c using Quotient.inductionOn' with
  | h l =>
      have hl : l.toFinset.Nonempty := l.toFinset_nonempty_iff.mpr fun hnil => hne ((Cycle.coe_eq_nil l).mpr hnil)
      obtain ⟨h, hmem, hmin⟩ := l.toFinset.exists_min_image (g.digraph.search g.entry).order.idxOf hl
      rw [List.mem_toFinset] at hmem
      obtain ⟨before, after, rfl⟩ := List.append_of_mem hmem
      have hturn : ((before ++ h :: after : List Nat) : Cycle Nat) = (h :: (after ++ before) : List Nat) :=
        Cycle.coe_eq_coe.mpr List.isRotated_append
      have hall : ∀ x ∈ h :: (after ++ before), g.Dominates h x := by
        rw [Cycle.mk''_eq_coe, hturn, Cycle.chain_coe_cons] at hchain
        refine Graph.dominates_along hrooted.exits_lt hchain fun x hx hedge => ?_
        have hlt : x < g.size := Graph.lt_of_mem_exits hedge
        have hleads := Digraph.search_leads (g := g.digraph) hrooted.entry_lt (fun a _ => hrooted.exits_lt a)
          (hrooted.reached x hlt) hedge
        rcases hleads with he | hfirst
        · exact (irreducible_eq_false hrooted hidom).mp hred _ he
        · have hin : x ∈ before ++ h :: after := List.isRotated_append.perm.mem_iff.mpr hx
          have hleast := hmin x (List.mem_toFinset.mpr hin)
          omega
      refine ⟨h, hmem, fun b hb => hall b ?_⟩
      rw [Cycle.mk''_eq_coe, hturn] at hb
      exact hb

/-- An edge that goes back closes a cycle with the way on which the search has come to its source. If a block of the
cycle dominates the others, this is the target of the edge, to which the way leads without them. -/
theorem reducible_of_oneEntry (hrooted : g.Rooted) (hidom : g.HasIdoms idom)
    (hone : ∀ c, g.IsCycle c → c.Nodup → g.OneEntry c) : (ofTables g idom ipdom).irreducible = false := by
  refine (irreducible_eq_false hrooted hidom).mpr fun (a, t) he => ?_
  have hordered := Digraph.search_ordered (g := g.digraph) hrooted.entry_lt fun a _ => hrooted.exits_lt a
  obtain ⟨path, htrail, hmem⟩ := hordered.back _ he
  obtain ⟨hedge, -, -⟩ := Digraph.retreating_edge hrooted.entry_lt he
  dsimp only at htrail hmem hedge ⊢
  obtain ⟨inner, outer, hpath⟩ := List.append_of_mem hmem
  rw [hpath] at htrail
  have hlast : (inner ++ [t]).head? = some a := by
    cases inner with
    | nil => exact congrArg some (List.cons.inj hpath).1.symm
    | cons x inner => exact congrArg some (List.cons.inj hpath).1.symm
  obtain ⟨hcycle, hnodup⟩ := Graph.isCycle_of_trail htrail hlast hedge
  have hin {b : Nat} : b ∈ ((t :: inner.reverse : List Nat) : Cycle Nat) ↔ b ∈ inner ++ [t] := by
    rw [Cycle.mem_coe_iff, List.mem_cons, List.mem_reverse, List.mem_append, List.mem_singleton, or_comm]
  obtain ⟨d, hd, hdom⟩ := hone _ hcycle hnodup
  have hsource := hdom a (hin.mpr (List.mem_of_mem_head? hlast))
  rcases List.mem_append.mp (hin.mp hd) with hd | hd
  · have hpast : d ∉ t :: outer := List.disjoint_of_nodup_append htrail.nodup hd
    exact (hdom t (hin.mpr (List.mem_append_right inner List.mem_cons_self)) (htrail.suffix.reaches hpast)).elim
  · exact List.mem_singleton.mp hd ▸ hsource

theorem irreducible_of_sameEdges {g' : Graph} {idom' ipdom' : Array (Option Nat)} (hrooted : g.Rooted)
    (hidom : g.HasIdoms idom) (hidom' : g'.HasIdoms idom') (h : g.SameEdges g') :
    (ofTables g' idom' ipdom').irreducible = (ofTables g idom ipdom).irreducible := by
  have hsame {g g' : Graph} {idom ipdom idom' ipdom' : Array (Option Nat)} (hrooted : g.Rooted)
      (hidom : g.HasIdoms idom) (hidom' : g'.HasIdoms idom') (h : g.SameEdges g')
      (hred : (ofTables g idom ipdom).irreducible = false) : (ofTables g' idom' ipdom').irreducible = false :=
    reducible_of_oneEntry (h.rooted hrooted) hidom' fun c hc _ =>
      h.oneEntry (oneEntry_of_reducible hrooted hidom hred (h.symm.isCycle hc))
  rw [Bool.eq_iff_iff, ← not_iff_not, Bool.not_eq_true, Bool.not_eq_true]
  exact ⟨hsame (h.rooted hrooted) hidom' hidom h.symm, hsame hrooted hidom hidom' h⟩

/-- Whatever table of immediate dominators is given, the flag says whether some cycle has no block that dominates all of
it. It is the same for all orders of the successors. The table that is computed is one of these. -/
theorem irreducible_iff {insns : List Insn} {tries : List TryRange} {length : Nat}
    (h : Graph.build insns tries length = .ok g) :
    g.HasIdoms (Dominance.of g).idom ∧ ∀ idom ipdom, g.HasIdoms idom →
      ((ofTables g idom ipdom).irreducible = false ↔ ∀ c, g.IsCycle c → g.OneEntry c) ∧
      ((ofTables g idom ipdom).irreducible = false ↔ ∀ c, g.IsCycle c → c.Nodup → g.OneEntry c) ∧
      ∀ g' idom' ipdom', g.SameEdges g' → g'.HasIdoms idom' →
        (ofTables g' idom' ipdom').irreducible = (ofTables g idom ipdom).irreducible := by
  have hrooted := Graph.build_rooted h
  refine ⟨hasIdoms_of hrooted.reached, fun idom ipdom hidom => ⟨⟨fun hred c => ?_, fun hone => ?_⟩, ⟨fun hred c hc _ => ?_,
    fun hone => ?_⟩, fun g' idom' ipdom' hsame hidom' => ?_⟩⟩
  · exact oneEntry_of_reducible hrooted hidom hred
  · exact reducible_of_oneEntry hrooted hidom fun c hc _ => hone c hc
  · exact oneEntry_of_reducible hrooted hidom hred hc
  · exact reducible_of_oneEntry hrooted hidom hone
  · exact irreducible_of_sameEdges hrooted hidom hidom' hsame

/-- A loop of two blocks in whose middle another jump leads. -/
def enterTwice : List Insn :=
  [.of (.jumpIf .eq 2) [.ofReg 0] none 0, .of .nop [] none 1, .of (.jumpIf .eq 1) [.ofReg 0] none 2, .of .ret [] none 3]

theorem irreducible_iff_enterTwice :
    ∃ g, Graph.build enterTwice [] 4 = .ok g ∧ (Dominance.of g).irreducible = true ∧
      (Dominance.of g.otherOrder).irreducible = true ∧ ∃ c, g.IsCycle c ∧ c.Nodup ∧ ¬g.OneEntry c := by
  obtain ⟨g, hbuild, hirreducible⟩ : ∃ g, Graph.build enterTwice [] 4 = .ok g ∧ (Dominance.of g).irreducible = true :=
    ⟨_, rfl, by decide +kernel⟩
  obtain ⟨hidom, hall⟩ := irreducible_iff hbuild
  obtain ⟨-, hcycles, hsame⟩ := hall _ (Dominance.of g).ipdom hidom
  have hother : g.otherOrder.HasIdoms (Dominance.of g.otherOrder).idom :=
    hasIdoms_of (g.sameEdges_otherOrder.rooted (Graph.build_rooted hbuild)).reached
  refine ⟨g, hbuild, hirreducible, (hsame _ _ _ g.sameEdges_otherOrder hother).trans hirreducible, ?_⟩
  by_contra hnone
  have hred := hcycles.mpr fun c hc hnodup => by_contra fun hone => hnone ⟨c, hc, hnodup, hone⟩
  exact nomatch hirreducible.symm.trans hred

end Dominance

end JavaLift
