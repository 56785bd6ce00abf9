import JavaLift.Proofs.Region.Laying
import JavaLift.Proofs.Region.Structuring

/-!
Structuring a graph ends, and places every block. Three steps at most lead from a block or a guarded range to the
next one, so that a walk never uses up the depth it is given.
-/

namespace JavaLift

open JavaLift.Frame

variable {g : Graph} {d : Dominance} {p q : Progress} {depth : Nat}

structure Graph.Ranged (g : Graph) (d : Dominance) : Prop extends g.Closed where
  ipdom_lt : ∀ b, ∀ n ∈ d.ipdomOf b, n < g.size

namespace Graph.Ranged

variable (hg : g.Ranged d)
include hg

theorem succs_lt {b n : Nat} (hn : n ∈ g.succs b) : n < g.size := hg.exits_lt b n (List.mem_append_left _ hn)

theorem handler_lt {t : TryRegion} (ht : t ∈ g.tries) {b : Nat} (hb : b ∈ t.covered) {x : HandlerBlock}
    (hx : x ∈ t.handlers) :
    x.block < g.size := by
  refine hg.exits_lt b x.block (List.mem_append_right _ ?_)
  exact (hg.mem_handlers b (hg.covered_lt t ht b hb) x.block).mpr ⟨t, ht, hb, x, hx, rfl⟩

end Graph.Ranged

namespace Region

structure Enters (s : Scope) (b : Nat) : Prop where
  jump : jump? b [] s.frames = none
  loop : s.inLoop b = true
  guarded : s.inTry b = true
  follow : s.follow ≠ some b

theorem enters_outermost (b : Nat) : Enters .outermost b := ⟨rfl, rfl, rfl, nofun⟩

structure Able (g : Graph) (depth : Nat) (s : Scope) (asBody : Bool) (b : Nat) (p : Progress) : Prop where
  lt : b < g.size
  fresh : asBody = true → b ∉ p.placed
  depth : 3 * pending g p + 1 ≤ depth ∨ (Enters s b ∧ b ∉ p.placed ∧ 3 * pending g p ≤ depth) ∨
    (asBody = true ∧ 3 * pending g p ≤ depth + 1)

/-- Two walks do the same wherever the depth is enough, and leave the blocks of what they return placed. -/
def Settle (g : Graph) (depth : Nat) (walk walk' : Walk) : Prop :=
  ∀ s asBody b p, Able g depth s asBody b p → Alike (walk s asBody b) (walk' s asBody b) p fun items q =>
    Laid g s.latch? p q (carriersOf items) (nodesOf items) ∧
      (b ∉ p.placed → asBody = true ∨ Enters s b → b ∈ carriersOf items)

def LaidAfter (g : Graph) (latch : Option Nat) (b : Nat) (p : Progress) (r : Region) (q : Progress) : Prop :=
  ∃ cs, carriers r = b :: cs ∧ Laid g latch p q cs (nodes r)

variable {walk walk' : Walk} {s : Scope} {b : Nat}

theorem nodes_then_subset (b : Nat) (negated : Bool) (thenPart : Region) (elsePart : Option Region) :
    nodes thenPart ⊆ nodes (.branch b negated thenPart elsePart) := by
  cases elsePart <;> simp [nodes]

theorem nodes_else_subset (b : Nat) (negated : Bool) (thenPart elsePart : Region) :
    nodes elsePart ⊆ nodes (.branch b negated thenPart (some elsePart)) := by
  simp [nodes]

theorem jumpTo_settles (target : Nat) (reason : String) (latch : Option Nat) (p : Progress) :
    Alike (jumpTo g target reason) (jumpTo g target reason) p fun r q => Laid g latch p q (carriers r) (nodes r) :=
  .refl (.same rfl rfl)

section

variable (hw : Settle g depth walk walk')
include hw

theorem walk_settles (hdepth : 3 * pending g p + 1 ≤ depth) (hb : b < g.size) (follow : Option Nat) :
    Alike (walk { s with follow := follow } false b) (walk' { s with follow := follow } false b) p fun items q =>
      Laid g s.latch? p q (carriersOf items) (nodes (ofList items)) :=
  (hw _ false b p ⟨hb, nofun, .inl hdepth⟩).mono fun _ _ h => h.1.mono (nodesOf_subset_ofList _)

theorem leave_settles (hdepth : 3 * pending g p ≤ depth) (hb : b < g.size) (fromTry : Bool) (latch : Option Nat) :
    Alike (leave g d walk fromTry b) (leave g d walk' fromTry b) p fun items q =>
      Laid g latch p q (carriersOf items) (nodesOf items) := by
  refine .get (.ite (fun h => ?_) fun _ => .bind ((jumpTo_settles b _ latch p).mono fun r q h => .pure ?_))
  · have hfree : b ∉ p.placed := fun hp => by
      change p.placed.contains b = true at hp
      simp [hp] at h
    refine (hw _ false b p ⟨hb, nofun, .inr (.inl ⟨enters_outermost b, hfree, hdepth⟩)⟩).mono fun items q h => ?_
    exact h.1.decided nofun
  · simpa [carriersOf, nodesOf] using h

theorem arms_settles (hdepth : 3 * pending g p + 1 ≤ depth) {fall target : Nat} (hfall : fall < g.size)
    (htarget : target < g.size)
    (merge : Option Nat) : Alike (arms walk s b fall target merge) (arms walk' s b fall target merge) p
      fun r q => LaidAfter g s.latch? b p r q := by
  refine .ite (fun _ => ?_) fun _ => .ite (fun _ => ?_) fun _ => ?_
  · refine .bind ((walk_settles hw hdepth hfall merge).mono fun items q h => .pure ?_)
    exact ⟨_, by simp [carriers], h.mono (nodes_then_subset ..)⟩
  · refine .bind ((walk_settles hw hdepth htarget merge).mono fun items q h => .pure ?_)
    exact ⟨_, by simp [carriers], h.mono (nodes_then_subset ..)⟩
  · refine .bind ((walk_settles hw hdepth hfall merge).mono fun items q h => ?_)
    have hdepth' : 3 * pending g q + 1 ≤ depth := by have := h.pending_le; omega
    refine .bind ((walk_settles hw hdepth' htarget merge).mono fun items' q' h' => .pure ?_)
    exact ⟨_, by simp [carriers], h.append h' (nodes_then_subset ..) (nodes_else_subset ..)⟩

theorem branchAt_settles (hg : g.Ranged d) (hdepth : 3 * pending g p + 1 ≤ depth) :
    Alike (branchAt g d walk s b) (branchAt g d walk' s b) p fun r q =>
      LaidAfter g s.latch? b p r.1 q ∧ ∀ n ∈ r.2, n < g.size := by
  unfold branchAt
  cases hsuccs : g.succs b with
  | nil => exact .pure ⟨⟨[], rfl, .same rfl rfl⟩, nofun⟩
  | cons fall rest =>
      have hfall : fall < g.size := hg.succs_lt (b := b) (by simp [hsuccs])
      cases rest with
      | nil => exact .pure ⟨⟨[], rfl, .same rfl rfl⟩, by simpa using hfall⟩
      | cons target rest =>
          have htarget : target < g.size := hg.succs_lt (b := b) (by simp [hsuccs])
          cases rest with
          | cons _ _ => exact .pure ⟨⟨[], rfl, .same rfl rfl⟩, nofun⟩
          | nil =>
              cases hmerge : mergeOf d s b with
              | some m =>
                  have hm : m < g.size := hg.ipdom_lt b m (Option.filter_eq_some_iff.mp hmerge).1
                  refine .bind ((arms_settles hw hdepth hfall htarget _).mono fun r q h => .pure ⟨h, ?_⟩)
                  simpa using hm
              | none =>
                  refine .get (.ite (fun _ => ?_) fun _ => .ite (fun _ => ?_) fun _ => ?_)
                  · refine .bind ((walk_settles hw hdepth htarget none).mono fun items q h =>
                      .pure ⟨?_, by simpa using hfall⟩)
                    exact ⟨_, by simp [carriers], h.mono (nodes_then_subset ..)⟩
                  · refine .bind ((walk_settles hw hdepth hfall none).mono fun items q h =>
                      .pure ⟨?_, by simpa using htarget⟩)
                    exact ⟨_, by simp [carriers], h.mono (nodes_then_subset ..)⟩
                  · exact .bind ((arms_settles hw hdepth hfall htarget _).mono fun r q h => .pure ⟨h, nofun⟩)

theorem caseBody_settles (hdepth : 3 * pending g p + 1 ≤ depth) {target : Nat} (htarget : target < g.size)
    (merge next : Option Nat) : Alike (caseBody g walk s merge next target) (caseBody g walk' s merge next target) p
      fun r q => Laid g s.latch? p q (carriers r) (nodes r) := by
  refine .ite (fun _ => .pure (.same rfl rfl)) fun _ => .get (.ite (fun _ => jumpTo_settles _ _ _ _) fun _ => ?_)
  refine .bind ((walk_settles hw hdepth htarget next).mono fun items q h => .pure ?_)
  rwa [carriers_ofList]

theorem caseBodies_settles (merge : Option Nat) {entries : List Nat} (hentries : ∀ t ∈ entries, t < g.size)
    {p : Progress}
    (hdepth : 3 * pending g p + 1 ≤ depth) :
    Alike (caseBodies g walk s merge entries) (caseBodies g walk' s merge entries) p fun bodies q =>
      Laid g s.latch? p q (carriersOf bodies) (nodesOf bodies) := by
  induction entries generalizing p with
  | nil => exact .pure (.same rfl rfl)
  | cons target rest ih =>
      rw [List.forall_mem_cons] at hentries
      refine .bind ((caseBody_settles hw hdepth hentries.1 merge _).mono fun r q h => ?_)
      have hdepth' : 3 * pending g q + 1 ≤ depth := by have := h.pending_le; omega
      refine .bind ((ih hentries.2 hdepth').mono fun bodies q' h' => .pure ?_)
      exact h.append h' (by simp [nodesOf]) (by simp [nodesOf])

omit hw in
theorem nodesOfCases_zip (heads : List CaseHead) (bodies : List Region) (h : heads.length = bodies.length) :
    nodesOfCases (heads.zip bodies) = nodesOf bodies := by
  induction bodies generalizing heads with
  | nil => simp [nodesOf, nodesOfCases]
  | cons body bodies ih =>
      cases heads with
      | nil => simp at h
      | cons head heads => simp [nodesOf, nodesOfCases, ih heads (by simpa using h)]

omit hw in
theorem keyBlocks_lt {keys : List Int} {targets : List Nat} {e : Nat × Int} (he : e ∈ keyBlocks g keys targets) :
    e.1 < g.size := by
  obtain ⟨⟨key, target⟩, -, hmap⟩ := List.mem_filterMap.mp he
  obtain ⟨b, hb, rfl⟩ := Option.map_eq_some_iff.mp hmap
  exact (Array.findIdx?_eq_some_iff_getElem.mp hb).1

theorem switchAt_settles (hg : g.Ranged d) (hdepth : 3 * pending g p + 1 ≤ depth) (keys : List Int)
    (targets : List Nat) :
    Alike (switchAt g d walk s b keys targets) (switchAt g d walk' s b keys targets) p fun r q =>
      LaidAfter g s.latch? b p r.1 q ∧ ∀ n ∈ r.2, n < g.size := by
  unfold switchAt
  cases hsuccs : g.succs b with
  | nil => exact .pure ⟨⟨[], rfl, .same rfl rfl⟩, nofun⟩
  | cons default rest =>
      have hentries : ∀ t ∈ caseTargets g (keyBlocks g keys targets) default (mergeOf d s b), t < g.size := by
        intro t ht
        rcases ((mem_caseTargets fun e => keyBlocks_lt).mp ht).1 with ⟨e, he, rfl⟩ | rfl
        · exact keyBlocks_lt he
        · exact hg.succs_lt (b := b) (by simp [hsuccs])
      refine .bind (((caseBodies_settles hw _ hentries hdepth).and
        (caseBodies_length g walk _ _ _ p)).mono fun bodies q h => ?_)
      refine .pure ⟨⟨carriersOf bodies, ?_, ?_⟩, ?_⟩
      · simp only [carriers]
        rw [carriersOfCases_zip]
        simpa using h.2.symm
      · refine h.1.mono ?_
        rw [nodes, nodesOfCases_zip _ _ (by rw [List.length_map, h.2])]
        exact List.subset_cons_self _ _
      · exact fun n hn => hg.ipdom_lt b n (Option.filter_eq_some_iff.mp hn).1

theorem handlerBody_settles (hdepth : 3 * pending g p + 1 ≤ depth) (hb : b < g.size) :
    Alike (handlerBody g walk s b) (handlerBody g walk' s b) p fun r q =>
      Laid g s.latch? p q (carriers r) (nodes r) := by
  refine .get (.ite (fun _ => jumpTo_settles _ _ _ _) fun _ => ?_)
  refine .bind ((walk_settles hw hdepth hb s.follow).mono fun items q h => .pure ?_)
  rwa [carriers_ofList]

theorem catchesOf_settles (seen : List Nat) {handlers : List HandlerBlock}
    (hhandlers : ∀ x ∈ handlers, x.block < g.size)
    {p : Progress} (hdepth : 3 * pending g p + 1 ≤ depth) :
    Alike (catchesOf g walk s seen handlers) (catchesOf g walk' s seen handlers) p fun catches q =>
      Laid g s.latch? p q (carriersOfCatches catches) (nodesOfCatches catches) := by
  induction handlers generalizing seen p with
  | nil => exact .pure (.same rfl rfl)
  | cons handler rest ih =>
      rw [List.forall_mem_cons] at hhandlers
      refine .ite (fun _ => ih seen hhandlers.2 hdepth) fun _ => ?_
      refine .bind ((handlerBody_settles hw hdepth hhandlers.1).mono fun r q h => ?_)
      have hdepth' : 3 * pending g q + 1 ≤ depth := by have := h.pending_le; omega
      refine .bind ((ih (handler.block :: seen) hhandlers.2 hdepth').mono fun catches q' h' => .pure ?_)
      exact h.append h' (by simp [nodesOfCatches]) (by simp [nodesOfCatches])

omit hw in
structure Stepped (g : Graph) (latch : Option Nat) (b : Nat) (p : Progress) (r : List Region × Option Nat)
    (q : Progress) :
    Prop where
  laid : Laid g latch p q (carriersOf r.1) (nodesOf r.1)
  carried : b ∈ carriersOf r.1
  next_lt : ∀ n ∈ r.2, n < g.size

theorem tryRegionAt_settles (hg : g.Ranged d) (hdepth : 3 * pending g p ≤ depth + 2) {n : Nat} {t : TryRegion}
    (ht : g.tries[n]? = some t) (hfree : n ∉ p.guarded) (hhead : t.covered.head? = some b) (hfresh : b ∉ p.placed)
    {asBody : Bool} (henters : asBody = true ∨ Enters s b) :
    Alike (tryRegionAt g walk s asBody n t) (tryRegionAt g walk' s asBody n t) p fun r q =>
      Stepped g s.latch? b p r q := by
  have htmem : t ∈ g.tries := List.mem_of_getElem? ht
  have hcovered : b ∈ t.covered := List.mem_of_mem_head? hhead
  have hb : b < g.size := hg.covered_lt t htmem b hcovered
  have hmerge : ∀ m ∈ (exitOfTry? g t).filter s.accepts, m < g.size ∧ m ≠ b := by
    intro m hm
    have hexit := List.mem_mergeSort.mp (List.mem_of_mem_head? (Option.filter_eq_some_iff.mp hm).1)
    simp only [List.mem_filter, List.mem_flatMap, Bool.and_eq_true, Bool.not_eq_true'] at hexit
    obtain ⟨⟨a, -, ha⟩, hout, -⟩ := hexit
    exact ⟨hg.succs_lt ha, fun hsame => by simp [hsame, hcovered] at hout⟩
  have hpending := pending_guard (List.getElem?_eq_some_iff.mp ht).1 hfree
  have hinner (allowed : List Nat) (hallowed : allowed = s.allowed.elim t.covered fun outer =>
    t.covered.filter outer.contains) :
      asBody = true ∨ Enters ⟨(exitOfTry? g t).filter s.accepts, s.frames, some allowed⟩ b := by
    refine henters.imp_right fun h => ⟨h.jump, h.loop, ?_, fun hm => (hmerge b hm).2 rfl⟩
    have htry := h.guarded
    unfold Scope.inTry at htry ⊢
    subst hallowed
    cases hs : s.allowed with
    | none => simpa [hs] using hcovered
    | some outer => simpa [hs, hcovered] using htry
  unfold tryRegionAt
  refine .modify ?_
  cases hlist : t.covered with
  | nil => simp [hlist] at hcovered
  | cons start rest =>
      obtain rfl : start = b := by simpa [hlist] using hhead
      rw [hlist] at hinner
      refine .bind ((hw _ asBody start (p.guard n) ⟨hb, fun _ => hfresh, .inl (by omega)⟩).mono fun body q h => ?_)
      have hstart := h.2 hfresh (hinner _ rfl)
      have hdepth' : 3 * pending g q + 1 ≤ depth := by have := h.1.pending_le; omega
      have hhandlers : ∀ x ∈ t.handlers, x.block < g.size := fun x hx => hg.handler_lt htmem hcovered hx
      refine .bind ((catchesOf_settles hw [] hhandlers hdepth').mono fun catches q' h' =>
        .pure ⟨?_, ?_, fun m hm => (hmerge m hm).1⟩)
      · have hboth : Laid g s.latch? p q' (carriersOf body ++ carriersOfCatches catches)
          (nodes (.guarded (ofList body) catches)) :=
          h.1.guard.append h' (fun r hr => by simp [nodes, nodesOf_subset_ofList body hr]) fun r hr => by
            simp [nodes, hr]
        simpa [carriersOf, carriers, nodesOf] using hboth
      · simpa [carriersOf, carriers] using .inl hstart

theorem loopRegionAt_settles (hg : g.Ranged d) (hdepth : 3 * pending g p ≤ depth + 1) {l : Loop}
    (hb : l.header < g.size)
    (hfresh : l.header ∉ p.placed) :
    Alike (loopRegionAt g d walk s l) (loopRegionAt g d walk' s l) p fun r q => Stepped g s.latch? l.header p r q := by
  have hable (s : Scope) : Able g depth s true l.header p := ⟨hb, fun _ => hfresh, .inr (.inr ⟨rfl, hdepth⟩)⟩
  refine .get ?_
  rcases loopShape_cases (g := g) (d := d) p l with ⟨negated, out, inner, hshape, htests⟩ |
    ⟨latch, negated, out, hshape, htests, -⟩ | hshape <;> rw [hshape]
  · have hplaced (items : List Region) : Laid g s.latch? p (p.place l.header) [l.header]
        (nodesOf [.loop .whileDo l.header (some l.header) negated (ofList (withoutLastContinue items))]) :=
      .place hfresh hb (.inr (.inl ⟨_, _, _, _, _, List.mem_cons_self, .inl ⟨rfl, rfl⟩⟩))
    have hinner : Able g depth ⟨none, .loop l.header (some out) l.body none :: s.frames, s.allowed⟩ false inner
      (p.place l.header) := by
      refine ⟨hg.succs_lt htests.inner_mem, nofun, .inl ?_⟩
      have := (hplaced []).pending_lt List.mem_cons_self
      omega
    refine .bind (.modify ((hw _ false inner _ hinner).mono fun items q h =>
      .pure ⟨?_, by simp [carriersOf, carriers], ?_⟩))
    · simpa [carriersOf, carriers] using (hplaced items).trans (h.1.loop nofun)
    · simpa using hg.succs_lt htests.out_mem
  · refine .bind (.ite (fun hself =>
      .modify (.pure (.pure ⟨?_, by simp [carriersOf, carriers, withoutLastContinue, ofList], ?_⟩))) fun hself => ?_)
    · obtain rfl : latch = l.header := Option.some.inj hself
      refine .place hfresh hb (.inr (.inl ?_))
      exact ⟨_, _, _, _, _, List.mem_cons_self, .inr ⟨rfl, rfl⟩⟩
    · simpa using hg.succs_lt htests.out_mem
    · refine (hw _ true l.header p (hable _)).mono fun items q h => .pure ⟨?_, ?_, ?_⟩
      · have hlaid : Laid g s.latch? p q (carriersOf items)
            (nodesOf [.loop .doWhile l.header (some latch) negated (ofList (withoutLastContinue items))]) :=
          h.1.loop fun b hb => ⟨rfl, hb⟩
        simpa [carriersOf, carriers] using hlaid
      · simpa [carriersOf, carriers] using h.2 hfresh (.inl rfl)
      · simpa using hg.succs_lt htests.out_mem
  · refine .bind ((hw _ true l.header p (hable _)).mono fun items q h => .pure ⟨?_, ?_, fun n hn => ?_⟩)
    · simpa [carriersOf, carriers] using h.1.loop nofun
    · simpa [carriersOf, carriers] using h.2 hfresh (.inl rfl)
    · obtain ⟨-, a, -, ha⟩ := endlessExit?_eq hn
      exact hg.succs_lt ha

theorem plainAt_settles (hg : g.Ranged d) (hdepth : 3 * pending g p ≤ depth + 2) (hb : b < g.size)
    (hfresh : b ∉ p.placed)
    (hguarded : ∀ n t, g.tries[n]? = some t → t.covered.head? = some b → n ∈ p.guarded) :
    Alike (plainAt g d walk s b) (plainAt g d walk' s b) p fun r q => Stepped g s.latch? b p r q := by
  have hplaced (regions : List Region) : Laid g s.latch? p (p.place b) [b] regions :=
    .place hfresh hb (.inr (.inr hguarded))
  have hdepth' : 3 * pending g (p.place b) + 1 ≤ depth := by
    have := (hplaced []).pending_lt List.mem_cons_self
    omega
  have hafter {r : Region} {next : Option Nat} {q : Progress}
      (h : LaidAfter g s.latch? b (p.place b) r q ∧ ∀ n ∈ next, n < g.size) :
      Stepped g s.latch? b p ([r], next) q := by
    obtain ⟨⟨cs, hcs, hlaid⟩, hnext⟩ := h
    exact ⟨by simpa [carriersOf, hcs, nodesOf] using (hplaced _).trans hlaid, by simp [carriersOf, hcs], hnext⟩
  have hblock {next : Option Nat} (hnext : ∀ n ∈ next, n < g.size) :
    Stepped g s.latch? b p ([.block b], next) (p.place b) :=
    hafter ⟨⟨[], rfl, .same rfl rfl⟩, hnext⟩
  have hhead : ∀ n ∈ (g.succs b).head?, n < g.size := fun n hn => hg.succs_lt (List.mem_of_mem_head? hn)
  refine .modify ?_
  cases hop : (g.block b).exitOp? with
  | none => exact .pure (hblock hhead)
  | some op =>
      cases op with
      | jumpIf c target => exact .bind ((branchAt_settles hw hg hdepth').mono fun r q h => .pure (hafter h))
      | switchOn keys targets default =>
          exact .bind ((switchAt_settles hw hg hdepth' keys targets).mono fun r q h => .pure (hafter h))
      | ret => exact .pure (hblock (by simp))
      | throw => exact .pure (hblock (by simp))
      | _ => exact .pure (hblock hhead)

theorem tryOrPlainAt_settles (hg : g.Ranged d) (hdepth : 3 * pending g p ≤ depth + 2) (hb : b < g.size)
    (hfresh : b ∉ p.placed)
    {asBody : Bool} (henters : asBody = true ∨ Enters s b) :
    Alike (tryOrPlainAt g d walk s asBody b) (tryOrPlainAt g d walk' s asBody b) p fun r q =>
      Stepped g s.latch? b p r q := by
  refine .get ?_
  rcases tryAt?_cases g p b with ⟨n, t, hsome, ht, hfree, hhead⟩ | ⟨hnone, hguarded⟩
  · rw [hsome]
    exact tryRegionAt_settles hw hg hdepth ht hfree hhead hfresh henters
  · rw [hnone]
    exact plainAt_settles hw hg hdepth hb hfresh hguarded

theorem loopAt_settles (hg : g.Ranged d) (hdepth : 3 * pending g p ≤ depth + 1) {l : Loop} (hb : l.header < g.size)
    (hfresh : l.header ∉ p.placed) (henters : Enters s l.header) :
    Alike (loopAt g d walk s l) (loopAt g d walk' s l) p fun r q => Stepped g s.latch? l.header p r q := by
  refine .get ?_
  rcases tryAt?_cases g p l.header with ⟨n, t, hsome, ht, hfree, hhead⟩ | ⟨hnone, -⟩
  · rw [hsome]
    refine .ite (fun _ => loopRegionAt_settles hw hg hdepth hb hfresh) fun _ => ?_
    exact tryRegionAt_settles hw hg (by omega) ht hfree hhead hfresh (.inr henters)
  · rw [hnone]
    exact loopRegionAt_settles hw hg hdepth hb hfresh

/-- What starts at a block, unless control leaves the region or comes to a block that has been placed. -/
theorem regionAt_settles (hg : g.Ranged d) (hs : Able g (depth + 1) s false b p) (hfollow : s.follow ≠ some b) :
    Alike (regionAt g d walk s b) (regionAt g d walk' s b) p fun r q =>
      Stepped g s.latch? b p r q ∨ r.2 = none ∧ Laid g s.latch? p q (carriersOf r.1) (nodesOf r.1) ∧
        (b ∉ p.placed → ¬ Enters s b) := by
  have hdepth : 3 * pending g p ≤ depth + 1 := by
    rcases hs.depth with h | ⟨-, -, h⟩ | ⟨h, -⟩
    · omega
    · exact h
    · cases h
  unfold regionAt
  cases hjump : jump? b [] s.frames with
  | some jump =>
      refine .modify (.pure (.inr ⟨rfl, ?_, fun _ h => by simp [h.jump] at hjump⟩))
      simpa [carriersOf, jump?_carriers hjump] using Laid.same (p.labelLoop_placed jump) (p.labelLoop_guarded jump)
  | none =>
      refine .get (.ite (fun hlatch => .modify (.pure (.inl ?_))) fun _ => .ite (fun hout => ?_) fun hin =>
        .ite (fun hplaced => ?_) fun hfresh => ?_)
      · have hfresh : b ∉ p.placed := fun hb => by
          change p.placed.contains b = true at hb
          simp [hb] at hlatch
        obtain ⟨hlatch, -⟩ : s.latch? = some b ∧ _ := by simpa using hlatch
        exact ⟨.place hfresh hs.lt (.inl hlatch), List.mem_cons_self, nofun⟩
      · have houtside : ¬ Enters s b := fun h => by simp [h.loop, h.guarded] at hout
        have hdepth' : 3 * pending g p ≤ depth := by
          rcases hs.depth with h | ⟨h, -⟩ | ⟨h, -⟩
          · omega
          · exact absurd h houtside
          · cases h
        exact .bind ((leave_settles hw hdepth' hs.lt _ s.latch?).mono fun items q h =>
          .pure (.inr ⟨rfl, h, fun _ => houtside⟩))
      · refine .bind ((jumpTo_settles b _ s.latch? p).mono fun r q h =>
          .pure (.inr ⟨rfl, ?_, fun hfresh => absurd hplaced hfresh⟩))
        simpa [carriersOf, nodesOf] using h
      · have hin : s.inLoop b = true ∧ s.inTry b = true := by simpa using hin
        have henters : Enters s b := ⟨hjump, hin.1, hin.2, hfollow⟩
        cases hloop : d.loopAt? b with
        | some l =>
            obtain rfl : l.header = b := by simpa using List.find?_some hloop
            exact (loopAt_settles hw hg hdepth hs.lt hfresh henters).mono fun r q h => .inl h
        | none => exact (tryOrPlainAt_settles hw hg (by omega) hs.lt hfresh (.inr henters)).mono fun r q h => .inl h

end

def goOn (walk : Walk) (s : Scope) (r : List Region × Option Nat) : StateM Progress (List Region) :=
  match r.2 with
  | none => return r.1
  | some n => do return r.1 ++ (← walk s false n)

/-- What `follow` does at a block, given a walk for everything after that. -/
def advance (g : Graph) (d : Dominance) (walk : Walk) : Walk := fun s asBody b => do
  if !asBody && s.follow == some b then return []
  else goOn walk s (← if asBody then tryOrPlainAt g d walk s true b else regionAt g d walk s b)

/-- What comes after a region that starts at a block begins with less left to do. -/
theorem goOn_settles (hw : Settle g depth walk walk') {r : List Region × Option Nat} {q : Progress}
    (h : Stepped g s.latch? b p r q)
    (hdepth : 3 * pending g p ≤ depth + 2) : Alike (goOn walk s r) (goOn walk' s r) q fun items q' =>
      Laid g s.latch? p q' (carriersOf items) (nodesOf items) ∧ b ∈ carriersOf items := by
  obtain ⟨items, next⟩ := r
  cases next with
  | none => exact .pure ⟨h.laid, h.carried⟩
  | some n =>
      have hable : Able g depth s false n q := by
        refine ⟨h.next_lt n rfl, nofun, .inl ?_⟩
        have := h.laid.pending_lt h.carried
        omega
      refine .bind ((hw s false n q hable).mono fun more q' h' => .pure ?_)
      rw [carriersOf_append, nodesOf_append]
      exact ⟨h.laid.append h'.1 (List.subset_append_left _ _) (List.subset_append_right _ _),
        List.mem_append_left _ h.carried⟩

theorem advance_settles (hg : g.Ranged d) (hw : Settle g depth walk walk') :
    Settle g (depth + 1) (advance g d walk) (advance g d walk') := by
  intro s asBody b p hs
  refine .ite (fun hend => .pure ⟨.same rfl rfl, fun _ henters => ?_⟩) fun hend => ?_
  · obtain ⟨hbody, hfollow⟩ : asBody = false ∧ s.follow = some b := by simpa using hend
    rcases henters with h | h
    · simp [hbody] at h
    · exact absurd hfollow h.follow
  · cases asBody with
    | true =>
        have hdepth : 3 * pending g p ≤ depth + 2 := by
          rcases hs.depth with h | ⟨-, -, h⟩ | ⟨-, h⟩ <;> omega
        refine .bind ((tryOrPlainAt_settles hw hg hdepth hs.lt (hs.fresh rfl) (.inl rfl)).mono fun r q h => ?_)
        exact (goOn_settles hw h hdepth).mono fun items q' h' => ⟨h'.1, fun _ _ => h'.2⟩
    | false =>
        have hdepth : 3 * pending g p ≤ depth + 2 := by
          rcases hs.depth with h | ⟨-, -, h⟩ | ⟨-, h⟩ <;> omega
        have hfollow : s.follow ≠ some b := by simpa using hend
        refine .bind ((regionAt_settles hw hg hs hfollow).mono fun r q h => ?_)
        rcases h with h | ⟨hnone, hlaid, hout⟩
        · exact (goOn_settles hw h hdepth).mono fun items q' h' => ⟨h'.1, fun _ _ => h'.2⟩
        · obtain ⟨items, next⟩ := r
          obtain rfl : next = none := hnone
          exact .pure ⟨hlaid, fun hfresh henters => absurd (henters.resolve_left Bool.false_ne_true) (hout hfresh)⟩

theorem settle_zero (walk walk' : Walk) : Settle g 0 walk walk' := by
  intro s asBody b p hs
  rcases hs.depth with h | ⟨-, hfresh, h⟩ | ⟨hbody, h⟩
  · omega
  · have := pending_pos hs.lt hfresh
    omega
  · have := pending_pos hs.lt (hs.fresh hbody)
    omega

/-- As far as its depth is enough, a walk does the same whatever comes after that depth. -/
theorem iterate_settles (hg : g.Ranged d) (depth : Nat) (walk walk' : Walk) :
    Settle g depth ((advance g d)^[depth] walk) ((advance g d)^[depth] walk') := by
  -- Each step leaves less to do than the depth that is left for what comes after it.
  induction depth with
  | zero => exact settle_zero walk walk'
  | succ depth ih =>
      rw [Function.iterate_succ_apply', Function.iterate_succ_apply']
      exact advance_settles hg ih

theorem follow_eq_iterate (g : Graph) (d : Dominance) (depth : Nat) :
    follow g d depth = (advance g d)^[depth] fun _ _ _ => return [] := by
  induction depth with
  | zero => rfl
  | succ depth ih =>
      rw [Function.iterate_succ_apply', ← ih]
      rfl

/-- A walk from the outermost region never comes to the end of its depth, and places its first block. -/
theorem whole_settles (hg : g.Ranged d) {b : Nat} (hb : b < g.size) (p : Progress) (beyond : Walk) :
    Alike (whole g d b) ((advance g d)^[depthBound g] beyond .outermost false b) p fun items q =>
      Laid g none p q (carriersOf items) (nodesOf items) ∧ (b ∉ p.placed → b ∈ carriersOf items) := by
  have hable : Able g (depthBound g) .outermost false b p := by
    refine ⟨hb, nofun, .inl ?_⟩
    have := pending_le_size g p
    unfold depthBound
    omega
  unfold whole
  rw [follow_eq_iterate]
  exact (iterate_settles hg _ _ beyond _ _ _ _ hable).mono fun items q h => ⟨h.1, fun hfresh =>
    h.2 hfresh (.inr (enters_outermost b))⟩

theorem rest_settles (hg : g.Ranged d) (bs : List Nat) (hbs : ∀ b ∈ bs, b < g.size) (p : Progress) :
    Ends (rest g d bs) p fun items q =>
      Laid g none p q (carriersOf items) (nodesOf items) ∧ ∀ b ∈ bs, b ∈ q.placed := by
  induction bs generalizing p with
  | nil => exact .pure ⟨.same rfl rfl, nofun⟩
  | cons b bs ih =>
      rw [List.forall_mem_cons] at hbs
      refine .get (.ite (fun hb => (ih hbs.2 p).mono fun items q h => ?_) fun hfresh => .modify (.bind ?_))
      · exact ⟨h.1, List.forall_mem_cons.mpr ⟨h.1.placed.mono b hb, h.2⟩⟩
      · refine (whole_settles hg hbs.1 (p.label b) (follow g d 0)).2.mono fun items q h => ?_
        refine .bind ((ih hbs.2 q).mono fun more q' h' => .pure ⟨?_, List.forall_mem_cons.mpr ⟨?_, h'.2⟩⟩)
        · have hlabel : Laid g none p (p.label b) [] (nodesOf items) := .same rfl rfl
          rw [carriersOf_append, nodesOf_append]
          exact (hlabel.trans h.1).append h'.1 (List.subset_append_left _ _) (List.subset_append_right _ _)
        · exact h'.1.placed.mono b (h.1.placed.placed b (h.2 hfresh))

theorem everything_settles (hg : g.Ranged d) (p : Progress) :
    Ends (everything g d) p fun items q =>
      Laid g none p q (carriersOf items) (nodesOf items) ∧ ∀ b < g.size, b ∈ q.placed := by
  refine .bind ((whole_settles hg hg.entry_lt p (follow g d 0)).2.mono fun items q h => ?_)
  refine .bind ((rest_settles hg _ (fun b hb => List.mem_range.mp hb) q).mono fun more q' h' => .pure ⟨?_, ?_⟩)
  · rw [carriersOf_append, nodesOf_append]
    exact h.1.append h'.1 (List.subset_append_left _ _) (List.subset_append_right _ _)
  · exact fun b hb => h'.2 b (List.mem_range.mpr hb)

end Region

theorem Dominance.ipdomOf_lt {b n : Nat} (h : (Dominance.of g).ipdomOf b = some n) : n < g.size := by
  simp only [Dominance.ipdomOf, Dominance.of, Dominance.ofTables, Option.join_eq_some_iff, Array.getElem?_map, Option.map_eq_some_iff,
    Option.filter_eq_some_iff] at h
  obtain ⟨a, -, himmediate, hne⟩ := h
  have hstrict := List.mem_of_find?_eq_some himmediate
  have hlt := List.mem_range.mp (List.mem_filter.mp hstrict).1
  rw [Digraph.dominators, Digraph.size_reach] at hlt
  have hsize : n < g.size + 1 := hlt
  have hne : n ≠ g.size := by simpa using hne
  omega

variable {insns : List Insn} {tries : List TryRange} {length : Nat}

theorem build_ranged (h : Graph.build insns tries length = .ok g) : g.Ranged (Dominance.of g) :=
  { Graph.build_closed h with ipdom_lt := fun _ _ => Dominance.ipdomOf_lt }

open Region

theorem root_of (hred : (Structured.of g).irreducible = false) :
    (Structured.of g).root = ofList ((everything g (Dominance.of g)).run .start).1 := by
  obtain hof | ⟨items, p, hrun, hof⟩ := Structured.of_cases g
  · rw [hof] at hred
    cases hred
  · rw [hof, hrun]

theorem mem_carriers_of (hg : g.Ranged (Dominance.of g)) (b : Nat) :
    b ∈ carriers (Structured.of g).root ↔ b < g.size := by
  obtain hof | ⟨items, p, hrun, hof⟩ := Structured.of_cases g
  · rw [hof]
    simp only [Structured.ofBlocks, carriers, carriersOf_raw]
    rw [List.mem_mergeSort, List.mem_range]
  · obtain ⟨hlaid, hall⟩ := everything_settles hg .start
    rw [show everything g (Dominance.of g) .start = (items, p) from hrun] at hlaid hall
    rw [hof, carriers_ofList]
    refine ⟨hlaid.lt b, fun hb => ?_⟩
    refine (hlaid.placed.only b (hall b hb)).resolve_left fun hstart => ?_
    have hempty : NatSet.empty.contains b = true := hstart
    simp at hempty

/-- Structuring a graph comes to its end: a walk from the outermost region is the same whatever a walk would do once
the depth is used up. The region tree carries every block once. -/
theorem Structured.carriers_perm (h : Graph.build insns tries length = .ok g) :
    (∀ b < g.size, ∀ p beyond, whole g (Dominance.of g) b p =
      (advance g (Dominance.of g))^[depthBound g] beyond .outermost false b p) ∧
    (carriers (Structured.of g).root).Perm (List.range g.size) := by
  have hg := build_ranged h
  refine ⟨fun b hb p beyond => (whole_settles hg hb p beyond).1, ?_⟩
  refine (List.perm_ext_iff_of_nodup (Structured.nodup_carriers g) List.nodup_range).mpr fun b => ?_
  rw [mem_carriers_of hg, List.mem_range]

/-- Calls `g`, and `h` as long as the result is zero. A handler guards the calls. -/
def guardedCalls : List Insn :=
  [.of (.invoke .static ⟨"Foo", "g", [], .int⟩) [] (some (.plain 1)) 0, .of (.jumpIf .ne 4) [.ofReg 1] none 1,
    .of (.invoke .static ⟨"Foo", "h", [], .void⟩) [] none 2, .of (.goto 0) [] none 3, .of .ret [] none 4,
    .of (.moveException none) [] (some (.plain 2)) 5, .of .ret [] none 6]

theorem Structured.carriers_perm_guardedCalls :
    ∃ g, Graph.build guardedCalls [⟨0, 4, [⟨none, 5⟩]⟩] 7 = .ok g ∧
      (carriers (Structured.of g).root).Perm (List.range g.size) :=
  ⟨_, rfl, (@Structured.carriers_perm _ guardedCalls [⟨0, 4, [⟨none, 5⟩]⟩] 7 rfl).2⟩

end JavaLift
