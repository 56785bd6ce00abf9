import JavaLift.Proofs.DefUse.Chain
import JavaLift.Proofs.Except
import JavaLift.Proofs.Flow.Walk
import JavaLift.Proofs.Inline.Apply

namespace JavaLift

def Block.leaves (b : Block) : List Register := b.insns.flatMap fun i => i.toArg.leaves

def Block.heads (b : Block) : List Head := b.insns.flatMap Insn.heads

namespace InlinePlan

variable {insns : List Insn} {ws : List Wrap} {w : Wrap} {places : List (Option Insn)}

/-- What is in the places after some moves, given the latest one first. Each has taken its source away and put it
in the place of the register that its use read at the path. -/
inductive Exchanged (insns : List Insn) : List Wrap → List (Option Insn) → Prop
  | nil : Exchanged insns [] (insns.map some)
  | cons {w : Wrap} {ws : List Wrap} {places : List (Option Insn)} {source target whole : Insn} {r : Register}
      (before : Exchanged insns ws places) (source_there : places[w.source]? = some (some source))
      (target_there : (places.set w.source none)[w.use]? = some (some target))
      (replaced : Arg.Replaced r source.toArg w.path target.toArg whole.toArg) :
      Exchanged insns (w :: ws) ((places.set w.source none).set w.use (some whole))

theorem Planned.exchanged (h : Planned insns ws) :
    ∃ places, Wrap.applyAll ws.reverse insns = .ok (places.filterMap id) ∧ Exchanged insns ws places := by
  refine h.applyAll .nil fun w ws places after _ hmade hplaces => ?_
  obtain ⟨source, target, whole, r, -, -, hsource, htarget, hreplaced, rfl⟩ := hmade
  exact .cons hplaces hsource htarget hreplaced

theorem flatMap_exchange {β : Type} (f : Insn → List β) (ys : List β) {s u : Nat} {source target whole : Insn}
    (hs : places[s]? = some (some source)) (hu : (places.set s none)[u]? = some (some target))
    (h : (f whole ++ ys).Perm (f target ++ f source)) :
    ((((places.set s none).set u (some whole)).flatMap fun i => i.elim [] f) ++ ys).Perm
      (places.flatMap fun i => i.elim [] f) := by
  have hin := flatMap_set_perm_append (fun i : Option Insn => i.elim [] f) (f source) ys (b := some whole) hu h
  have hout := flatMap_set_perm_append (fun i : Option Insn => i.elim [] f) [] (f source) (b := none) hs (by simp)
  rw [List.append_nil] at hout
  exact hin.trans hout

theorem flatMap_filterMap_id {β : Type} (f : Insn → List β) (places : List (Option Insn)) :
    (places.filterMap id).flatMap f = places.flatMap fun i => i.elim [] f := by
  rw [List.filterMap_eq_flatMap_toList, List.flatMap_assoc]
  refine List.flatMap_congr fun i _ => ?_
  cases i <;> simp

/-- The nodes in place are those that were there. -/
theorem Exchanged.heads_perm (h : Exchanged insns ws places) :
    ((places.filterMap id).flatMap Insn.heads).Perm (insns.flatMap Insn.heads) := by
  rw [flatMap_filterMap_id]
  induction h with
  | nil => simp [List.flatMap_map]
  | cons before hs hu replaced ih =>
      refine .trans ?_ ih
      have hstep := flatMap_exchange Insn.heads [] hs hu (by rw [List.append_nil]; exact replaced.heads_perm)
      rwa [List.append_nil] at hstep

theorem Exchanged.leaves_length (h : Exchanged insns ws places) :
    ((places.filterMap id).flatMap fun i => i.toArg.leaves).length + ws.length =
      (insns.flatMap fun i => i.toArg.leaves).length := by
  rw [flatMap_filterMap_id]
  induction h with
  | nil => simp [List.flatMap_map]
  | @cons w ws places source target whole r before hs hu replaced ih =>
      have hstep := (flatMap_exchange (fun i => i.toArg.leaves) [r] hs hu replaced.leaves_perm).length_eq
      rw [List.length_append, List.length_singleton] at hstep
      rw [List.length_cons]
      omega

/-- The sources of the moves have left their places. All else stays where it is, with its own node. -/
theorem Exchanged.getElem?_heads (h : Exchanged insns ws places) (pos : Nat) :
    (places[pos]?).map (Option.map Insn.toHead) =
      (insns[pos]?).map fun i => if ws.any (·.source == pos) then none else some i.toHead := by
  induction h with
  | nil => simp [Function.comp_def]
  | @cons w ws places source target whole r before hs hu replaced ih =>
      have hout : ((places.set w.source none)[pos]?).map (Option.map Insn.toHead) =
          (insns[pos]?).map fun i => if (w :: ws).any (·.source == pos) then none else some i.toHead := by
        by_cases hpos : w.source = pos
        · subst hpos
          have hlt := (List.getElem?_eq_some_iff.mp hs).1
          rw [hs] at ih
          rw [List.getElem?_set_self hlt]
          cases hi : insns[w.source]? with
          | none => simp [hi] at ih
          | some i => simp
        · rw [List.getElem?_set_ne hpos, ih]
          simp [hpos]
      by_cases hpos : w.use = pos
      · subst hpos
        rw [List.getElem?_set_self (List.getElem?_eq_some_iff.mp hu).1, ← hout, hu]
        simp [Insn.toHead_replaced replaced]
      · rw [List.getElem?_set_ne hpos, hout]

/-- The instructions that stay are in their order. -/
theorem Exchanged.order (h : Exchanged insns ws places) :
    (places.filterMap id).map Insn.toHead =
      (insns.zipIdx.filter fun x => ws.all (·.source != x.2)).map (·.1.toHead) := by
  have hplaces : places.map (Option.map Insn.toHead) =
      insns.zipIdx.map fun x => if ws.any (·.source == x.2) then none else some x.1.toHead := by
    refine List.ext_getElem? fun pos => ?_
    rw [List.getElem?_map, h.getElem?_heads, List.getElem?_map, List.getElem?_zipIdx, Option.map_map]
    simp [Function.comp_def]
  calc (places.filterMap id).map Insn.toHead
      = (places.map (Option.map Insn.toHead)).filterMap id := by
        rw [List.map_filterMap, List.filterMap_map]
        rfl
    _ = (insns.zipIdx.filter fun x => ws.all (·.source != x.2)).map (·.1.toHead) := by
        rw [hplaces, List.filterMap_map, ← List.filterMap_eq_map, List.filterMap_filter]
        refine List.filterMap_congr fun x _ => ?_
        have hall : ws.all (·.source != x.2) = !ws.any (·.source == x.2) := List.not_any_eq_all_not.symm
        rw [hall, Function.comp_apply]
        cases ws.any (·.source == x.2)
        · simp
        · simp

theorem Planned.nodup_sources (h : Planned insns ws) : (ws.map Wrap.source).Nodup := by
  induction ws with
  | nil => exact .nil
  | cons w ws ih =>
      have hbefore : Planned insns ws := by cases h with | cons before => exact before
      refine List.nodup_cons.mpr ⟨fun hmem => ?_, ih hbefore⟩
      obtain ⟨v, hv, he⟩ := List.mem_map.mp hmem
      exact h.source_free v hv he

theorem Planned.nodup_targets (h : Planned insns ws) : (ws.map fun w => (w.use, w.path)).Nodup := by
  induction h with
  | nil => exact .nil
  | cons before _ _ _ _ free _ ih =>
      refine List.nodup_cons.mpr ⟨fun hmem => ?_, ih⟩
      obtain ⟨v, hv, he⟩ := List.mem_map.mp hmem
      exact free v hv (congrArg Prod.fst he) (congrArg Prod.snd he)

end InlinePlan

namespace Inlining

open InlinePlan

variable {c : Chain} {b pos : Nat} {insns : List Insn} {p q : InlinePlan}

def Sourced (c : Chain) (b : Nat) (p : InlinePlan) : Prop :=
  ∀ w ∈ p.wraps, c.inlineSource? b w.use w.path = some w.source

theorem planRead_sourced {path : ArgPath} (hp : Sourced c b p) (h : planRead c b pos p path = .ok q) : Sourced c b q := by
  unfold planRead at h
  split at h
  · cases h
    exact hp
  · rename_i source hsource
    split at h
    · cases h
      exact hp
    · unfold plan at h
      split at h
      · cases h
      · split at h
        · cases h
          exact List.forall_mem_cons.mpr ⟨hsource, hp⟩
        · cases h
          exact hp

theorem planBlock_sourced {moves : List Wrap} (h : planBlock c b insns = .ok moves) {w : Wrap} (hw : w ∈ moves) :
    c.inlineSource? b w.use w.path = some w.source := by
  obtain ⟨p, hp, h⟩ := bind_eq_ok.mp h
  cases h
  have hsourced : Sourced c b p := invariant_of_foldlM
    (fun _ x _ _ hbefore hx => invariant_of_foldlM (fun _ _ _ _ => planRead_sourced) hbefore hx)
    (fun _ hw => absurd hw List.not_mem_nil) hp
  exact hsourced w (List.mem_reverse.mp hw)

structure Keeps (block after : Block) (moved : Nat) : Prop where
  nodes : after.heads.Perm block.heads
  leaves : after.leaves.length + moved = block.leaves.length
  order : (after.insns.map Insn.toHead).Sublist (block.insns.map Insn.toHead)
  rest : after = { block with insns := after.insns }

theorem Keeps.refl (block : Block) : Keeps block block 0 := ⟨.refl _, rfl, .refl _, rfl⟩

theorem Keeps.trans {block between after : Block} {m n : Nat} (h : Keeps block between m) (h' : Keeps between after n) :
    Keeps block after (m + n) := by
  refine ⟨h'.nodes.trans h.nodes, ?_, h'.order.trans h.order, ?_⟩
  · have := h.leaves
    have := h'.leaves
    omega
  · rw [h'.rest, h.rest]

/-- What a pass does to a block. Its moves are those that planning gives. Each takes a definition of its own to a
register of its own, which no other definition reaches and which alone reads the definition. -/
structure Moves (c : Chain) (b : Nat) (block after : Block) (moves : List Wrap) : Prop where
  planned : planBlock c b block.insns = .ok moves
  sources : (moves.map Wrap.source).Nodup
  targets : (moves.map fun w => (w.use, w.path)).Nodup
  exclusive : ∀ w ∈ moves, c.Exclusive b w.source w.use w.path
  exchanged : ∃ places, Exchanged block.insns moves.reverse places ∧ after = { block with insns := places.filterMap id }
  order : after.insns.map Insn.toHead =
    (block.insns.zipIdx.filter fun x => moves.all (·.source != x.2)).map (·.1.toHead)

theorem Moves.keeps {block after : Block} {moves : List Wrap} (h : Moves c b block after moves) :
    Keeps block after moves.length := by
  obtain ⟨places, hplaces, hafter⟩ := h.exchanged
  refine ⟨?_, ?_, ?_, ?_⟩
  · rw [hafter]
    exact hplaces.heads_perm
  · have hlength := hplaces.leaves_length
    rw [List.length_reverse] at hlength
    rw [hafter]
    exact hlength
  · have hall : block.insns.zipIdx.map (·.1.toHead) = block.insns.map Insn.toHead := by
      rw [← List.zipIdx_map_fst 0 block.insns, List.map_map, List.zipIdx_map_fst]
      rfl
    rw [h.order, ← hall]
    exact List.filter_sublist.map _
  · rw [hafter]

theorem Shrunk.moves {g : Graph} {entry : List Register} {block after : Block}
    (h : Shrunk (Chain.build g entry) b block after) : ∃ moves, Moves (Chain.build g entry) b block after moves := by
  obtain ⟨moves, out, hplan, hplanned, happly, rfl⟩ := h
  obtain ⟨places, happly', hplaces⟩ := hplanned.exchanged
  rw [List.reverse_reverse, happly] at happly'
  cases happly'
  refine ⟨moves, hplan, ?_, ?_, fun w hw => Chain.exclusive_of_inlineSource? (planBlock_sourced hplan hw),
    ⟨places, hplaces, rfl⟩, ?_⟩
  · simpa using hplanned.nodup_sources
  · simpa using hplanned.nodup_targets
  · simpa using hplaces.order

/-- Nothing moves in a block without instructions. -/
theorem Moves.of_insns_nil {block : Block} (h : block.insns = []) : Moves c b block block [] := by
  refine ⟨by rw [h]; rfl, .nil, .nil, nofun, ⟨[], ?_, ?_⟩, ?_⟩
  · rw [h]
    exact .nil
  · obtain ⟨start, insns, succs, handlers⟩ := block
    cases h
    rfl
  · rw [h]
    rfl

theorem pass_moves (g : Graph) (entry : List Register) :
    ∃ g' moved, ∃ moves : Nat → List Wrap, pass g entry = .ok (g', moved) ∧ g'.size = g.size ∧
      ∀ b, Moves (Chain.build g entry) b (g.block b) (g'.block b) (moves b) := by
  obtain ⟨g', moved, hpass, hsize, hshrunk⟩ := pass_shrunk g entry
  have hmoves (b : Nat) : ∃ moves, Moves (Chain.build g entry) b (g.block b) (g'.block b) moves := by
    by_cases hb : b < g.size
    · exact (hshrunk b hb).moves
    · rw [Graph.block_of_size_le (Nat.le_of_not_lt hb), Graph.block_of_size_le (by omega)]
      exact ⟨[], .of_insns_nil rfl⟩
  choose moves hmoves using hmoves
  exact ⟨g', moved, moves, hpass, hsize, hmoves⟩

/-- A run with the moves that each of its passes makes in the blocks, the first pass first. It ends with a pass that
moves nothing, or when no pass is left. -/
inductive Run (entry : List Register) : Nat → Graph → List (Nat → List Wrap) → Graph → Prop
  | limit {g : Graph} : Run entry 0 g [] g
  | last {left : Nat} {g g' : Graph} {moves : Nat → List Wrap} (made : pass g entry = .ok (g', 0))
      (moved : ∀ b, Moves (Chain.build g entry) b (g.block b) (g'.block b) (moves b)) : Run entry (left + 1) g [moves] g'
  | next {left count : Nat} {g g' h : Graph} {moves : Nat → List Wrap} {steps : List (Nat → List Wrap)}
      (made : pass g entry = .ok (g', count)) (more : count ≠ 0)
      (moved : ∀ b, Moves (Chain.build g entry) b (g.block b) (g'.block b) (moves b))
      (rest : Run entry left g' steps h) : Run entry (left + 1) g (moves :: steps) h

theorem run_steps (entry : List Register) (limit left : Nat) (s : Inlining) (g : Graph) :
    ∃ g' s' steps, run entry limit left s g = .ok (g', s') ∧ g'.size = g.size ∧ Run entry left g steps g' := by
  induction left generalizing s g with
  | zero => exact ⟨g, _, [], rfl, rfl, .limit⟩
  | succ left ih =>
      obtain ⟨g₁, count, moves, hpass, hsize, hmoves⟩ := pass_moves g entry
      by_cases hcount : count = 0
      · subst hcount
        refine ⟨g₁, { s with passes := s.passes + 1, moved := s.moved + 0 }, [moves], ?_, hsize, .last hpass hmoves⟩
        rw [run, hpass]
        rfl
      · obtain ⟨g', s', steps, hrun, hsize', hsteps⟩ := ih { s with passes := s.passes + 1, moved := s.moved + count } g₁
        refine ⟨g', s', moves :: steps, ?_, hsize'.trans hsize, .next hpass hcount hmoves hsteps⟩
        rw [run, hpass]
        exact (if_neg hcount).trans hrun

theorem Run.keeps {entry : List Register} {left : Nat} {g g' : Graph} {steps : List (Nat → List Wrap)}
    (h : Run entry left g steps g') (b : Nat) :
    Keeps (g.block b) (g'.block b) (steps.map fun moves => (moves b).length).sum := by
  induction h with
  | limit => exact .refl _
  | last _ moved => simpa using (moved b).keeps
  | next _ _ moved _ ih => simpa using (moved b).keeps.trans ih

/-- Moving values into place always succeeds. Every block keeps its nodes, and what stays outermost in it keeps its
order. With every move it reads one register less: the value that moves was the only one that reached the register,
and was read nowhere else. -/
theorem inlineValues_keeps (g : Graph) (entry : List Register) (maxPasses : Nat) :
    ∃ g' s steps, g.inlineValues entry maxPasses = .ok (g', s) ∧ g'.size = g.size ∧ Run entry maxPasses g steps g' ∧
      ∀ b, Keeps (g.block b) (g'.block b) (steps.map fun moves => (moves b).length).sum := by
  obtain ⟨g', s, steps, hrun, hsize, hsteps⟩ := run_steps entry maxPasses maxPasses ⟨0, 0, []⟩ g
  exact ⟨g', s, steps, hrun, hsize, hsteps, hsteps.keeps⟩

end Inlining

end JavaLift
