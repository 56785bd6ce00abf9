import JavaLift.Proofs.Flow.Addresses
import JavaLift.Proofs.Fold.Conditional
import JavaLift.Proofs.Region.Labelling

namespace JavaLift

open Region

/-- Nodes have gone, but no loops and no jumps, and the others are about blocks that there were nodes about. -/
structure Sheds (ns ns' : List Region) : Prop where
  marks : ns'.filterMap mark? = ns.filterMap mark?
  owns : ns'.filterMap own? ⊆ ns.filterMap own?

namespace Sheds

variable {ns ns' ns'' more more' : List Region} {n n' : Region}

theorem refl (ns : List Region) : Sheds ns ns := ⟨rfl, List.Subset.refl _⟩

theorem trans (h : Sheds ns ns') (h' : Sheds ns' ns'') : Sheds ns ns'' :=
  ⟨h'.marks.trans h.marks, fun _ hb => h.owns (h'.owns hb)⟩

theorem append (h : Sheds ns ns') (h' : Sheds more more') : Sheds (ns ++ more) (ns' ++ more') where
  marks := by rw [List.filterMap_append, List.filterMap_append, h.marks, h'.marks]
  owns b hb := by
    rw [List.filterMap_append, List.mem_append] at hb ⊢
    exact hb.imp (@h.owns b) (@h'.owns b)

/-- A node with others inside it, where these shed. -/
theorem under (hmark : n'.mark? = n.mark?) (hown : n'.own? = n.own?) (h : Sheds ns ns') : Sheds (n :: ns) (n' :: ns') := by
  have hhead : Sheds [n] [n'] := by
    refine ⟨?_, fun b hb => ?_⟩
    · rw [List.filterMap_cons, List.filterMap_cons, hmark]
    · rw [List.filterMap_cons, hown] at hb
      rw [List.filterMap_cons]
      exact hb
  exact hhead.append h

/-- A node goes with all that is inside it, but for its own block. -/
theorem leaving {header : Nat} (hmarks : (n :: ns).filterMap mark? = []) (hown : n.own? = some header) :
    Sheds (n :: ns) [.block header] := by
  refine ⟨hmarks.symm, fun b hb => List.mem_filterMap.mpr ⟨n, List.mem_cons_self, ?_⟩⟩
  obtain rfl : b = header := by simpa [own?] using hb
  exact hown

theorem marks_eq {r r' : Region} (h : Sheds r.nodes r'.nodes) : r'.marks = r.marks := h.marks

theorem stands {r r' : Region} {b : Nat} (h : Sheds r.nodes r'.nodes) (hb : r'.Stands b) : r.Stands b := by
  obtain ⟨n, hn, hown⟩ := hb
  exact List.mem_filterMap.mp (h.owns (List.mem_filterMap.mpr ⟨n, hn, hown⟩))

end Sheds

namespace Conditionals

variable {g g' : Graph} {header a b : Nat} {insns : List Insn} {last : Insn} {r : Region}

theorem aligned_closed : Graph.Aligned g (closed g header insns last a b) :=
  ((Graph.aligned_setInsns _ _ _).trans (Graph.aligned_setInsns _ _ _)).trans (Graph.aligned_setInsns _ _ _)

theorem sheds_assignments (h : foldAssignments? g r = some (g', header, a, b)) :
    g.Aligned g' ∧ Sheds r.nodes [.block header] := by
  unfold foldAssignments? at h
  split at h
  · simp only [Option.bind_eq_bind, Option.bind_eq_some_iff] at h
    obtain ⟨x, -, y, -, h⟩ := h
    split at h
    · obtain ⟨⟨cmp, comparison, insns⟩, -, h⟩ := Option.bind_eq_some_iff.mp h
      cases h
      exact ⟨aligned_closed, .leaving rfl rfl⟩
    · cases h
  · cases h

theorem sheds_returns {next : Option Region} (h : foldReturns? g r next = some (g', header)) :
    g.Aligned g' ∧ if hasElse r then Sheds r.nodes [.block header]
      else ∃ b, next = some (.block b) ∧ Sheds (r.nodes ++ [.block b]) [.block header] := by
  simp only [foldReturns?, Option.bind_eq_bind, Option.bind_eq_some_iff] at h
  obtain ⟨⟨header', negated, a, b⟩, harms, ⟨head, x⟩, -, ⟨_, y⟩, -, ⟨cmp, comparison, insns⟩, -, h⟩ := h
  cases h
  obtain ⟨elsePart, rfl, helse⟩ := armsOf?_eq harms
  refine ⟨aligned_closed, ?_⟩
  cases elsePart with
  | none => exact ⟨b, by simpa using helse, .leaving rfl rfl⟩
  | some e =>
      obtain rfl : e = .block b := by simpa using helse
      exact .leaving rfl rfl

/-- What folding at a place does: the blocks keep their offsets, and the nodes shed. Without a fold no block goes. -/
structure Settles (c : Conditionals) (ns ns' : List Region) (c' : Conditionals) : Prop where
  aligned : c.graph.Aligned c'.graph
  sheds : Sheds ns ns'
  still : c'.folded = [] → c.folded = [] ∧ ns'.filterMap own? = ns.filterMap own?

namespace Settles

variable {c c' c'' : Conditionals} {ns ns' ns'' more more' : List Region} {n n' : Region}

theorem refl (c : Conditionals) (ns : List Region) : Settles c ns ns c := ⟨.refl _, .refl _, fun h => ⟨h, rfl⟩⟩

theorem trans (h : Settles c ns ns' c') (h' : Settles c' ns' ns'' c'') : Settles c ns ns'' c'' where
  aligned := h.aligned.trans h'.aligned
  sheds := h.sheds.trans h'.sheds
  still hnone := by
    obtain ⟨hfolded, howns⟩ := h'.still hnone
    exact ⟨(h.still hfolded).1, howns.trans (h.still hfolded).2⟩

theorem append (h : Settles c ns ns' c') (h' : Settles c' more more' c'') :
    Settles c (ns ++ more) (ns' ++ more') c'' where
  aligned := h.aligned.trans h'.aligned
  sheds := h.sheds.append h'.sheds
  still hnone := by
    obtain ⟨hfolded, howns⟩ := h'.still hnone
    rw [List.filterMap_append, List.filterMap_append, howns, (h.still hfolded).2]
    exact ⟨(h.still hfolded).1, rfl⟩

theorem under (h : Settles c ns ns' c') (hmark : n'.mark? = n.mark?) (hown : n'.own? = n.own?) :
    Settles c (n :: ns) (n' :: ns') c' where
  aligned := h.aligned
  sheds := h.sheds.under hmark hown
  still hnone := by
    obtain ⟨hfolded, howns⟩ := h.still hnone
    rw [List.filterMap_cons, List.filterMap_cons, hown, howns]
    exact ⟨hfolded, rfl⟩

theorem note {arms : Option (Nat × Nat)} (h : c.graph.Aligned g) (hsheds : Sheds ns ns') :
    Settles c ns ns' (c.note g header arms) := ⟨h, hsheds, fun hnone => by cases hnone⟩

/-- Only a header that has been folded lets a block join it. -/
theorem absorb {merge : Nat} (h : c.absorbs header merge = true) :
    Settles c ([.block header] ++ [.block merge]) [.block header] (c.absorb header merge) where
  aligned := (Graph.aligned_setInsns _ _ _).trans (Graph.aligned_setInsns _ _ _)
  sheds := .leaving rfl rfl
  still hnone := by
    have hfolded : c.folded = [] := hnone
    rw [absorbs, hfolded] at h
    cases h

end Settles

theorem foldReturns_settles (items : List Region) (c : Conditionals) :
    Ends (foldReturns items) c fun items' => Settles c (nodesOf items) (nodesOf items') := by
  fun_induction foldReturns items generalizing c with
  | case1 => exact .pure (.refl _ _)
  | case2 r =>
      refine .get ?_
      split
      · rename_i g header h
        obtain ⟨haligned, hsheds⟩ := sheds_returns h
        rw [if_pos (hasElse_of_foldReturns? h)] at hsheds
        refine .set (.pure (.note haligned ?_))
        simpa [nodesOf, nodes] using hsheds
      · exact .pure (.refl _ _)
  | case3 r next rest ih ih' =>
      refine .get ?_
      split
      · rename_i g header h
        obtain ⟨haligned, hsheds⟩ := sheds_returns h
        refine .set (.ite (fun helse => ?_) fun helse => ?_)
        · rw [if_pos helse] at hsheds
          exact .bind ((ih _).mono fun items' c' h' => .pure ((Settles.note haligned hsheds).append h'))
        · rw [if_neg helse] at hsheds
          obtain ⟨b, hb, hsheds⟩ := hsheds
          cases hb
          refine .bind ((ih' _).mono fun items' c' h' => .pure ?_)
          have hall := (Settles.note haligned hsheds).append h'
          rwa [List.append_assoc] at hall
      · exact .bind ((ih _).mono fun items' c' h' => .pure ((Settles.refl c r.nodes).append h'))

theorem absorbAll_settles (r : Region) (items : List Region) (c : Conditionals) :
    Ends (absorbAll r items) c fun items' => Settles c (nodesOf (r :: items)) (nodesOf items') := by
  induction items generalizing r c with
  | nil => exact .pure (.refl _ _)
  | cons next rest ih =>
      have hstay : Ends (do return r :: (← absorbAll next rest)) c fun items' =>
          Settles c (nodesOf (r :: next :: rest)) (nodesOf items') :=
        .bind ((ih next c).mono fun items' c' h => .pure ((Settles.refl c r.nodes).append h))
      unfold absorbAll
      refine .get ?_
      split
      · rename_i header merge
        refine .ite (fun habsorbs => .set ?_) fun _ => hstay
        have hjoined := (Settles.absorb habsorbs).append (.refl _ (nodesOf rest))
        exact (ih (.block header) _).mono fun items' c' h => hjoined.trans h
      · exact hstay

theorem foldSequence_settles (items : List Region) (c : Conditionals) :
    Ends (foldSequence items) c fun items' => Settles c (nodesOf items) (nodesOf items') := by
  refine .bind ((foldReturns_settles items c).mono fun items' c' h => ?_)
  cases items' with
  | nil => exact .pure h
  | cons r rest => exact (absorbAll_settles r rest c').mono fun items'' c'' h' => h.trans h'

theorem foldBranch_settles (r : Region) (c : Conditionals) :
    Ends (foldBranch r) c fun r' => Settles c r.nodes r'.nodes := by
  refine .get ?_
  split
  · rename_i g header a b h
    obtain ⟨haligned, hsheds⟩ := sheds_assignments h
    exact .set (.pure (.note haligned hsheds))
  · split
    · rename_i g header h
      obtain ⟨haligned, hsheds⟩ := sheds_returns h
      rw [if_pos (hasElse_of_foldReturns? h)] at hsheds
      exact .set (.pure (.note haligned hsheds))
    · exact .pure (.refl _ _)

theorem foldAt_settles (r : Region) (c : Conditionals) : Ends (foldAt r) c fun r' => Settles c r.nodes r'.nodes := by
  cases r with
  | seq items => exact .bind ((foldSequence_settles items c).mono fun items' c' h => .pure (h.under rfl rfl))
  | branch header negated thenPart elsePart => exact foldBranch_settles _ c
  | _ => exact .pure (.refl _ _)

/-- Folding at a node after what is inside it. -/
theorem Settles.thenAt {c c' : Conditionals} {ns : List Region} {r : Region} (h : Settles c ns r.nodes c') :
    Ends (foldAt r) c' fun r' => Settles c ns r'.nodes :=
  (foldAt_settles r c').mono fun _ _ h' => h.trans h'

mutual

theorem transform_settles : (r : Region) → ∀ c : Conditionals,
    Ends (r.transform foldAt) c fun r' => Settles c r.nodes r'.nodes
  | .seq items, c =>
      .bind ((transformAll_settles items c).mono fun _ _ h => Settles.thenAt (r := .seq _) (h.under rfl rfl))
  | .branch header negated thenPart none, c =>
      .bind ((transform_settles thenPart c).mono fun _ _ h => Settles.thenAt (r := .branch ..) (h.under rfl rfl))
  | .branch header negated thenPart (some elsePart), c => by
      refine .bind ((transform_settles thenPart c).mono fun then' c' h => ?_)
      refine .bind ((transform_settles elsePart c').mono fun else' c'' h' => ?_)
      exact Settles.thenAt (r := .branch ..) ((h.append h').under rfl rfl)
  | .loop kind header cond negated body, c =>
      .bind ((transform_settles body c).mono fun _ _ h => Settles.thenAt (r := .loop ..) (h.under rfl rfl))
  | .switch header cases, c =>
      .bind ((transformCases_settles cases c).mono fun _ _ h => Settles.thenAt (r := .switch ..) (h.under rfl rfl))
  | .guarded body catches, c => by
      refine .bind ((transform_settles body c).mono fun body' c' h => ?_)
      refine .bind ((transformCatches_settles catches c').mono fun catches' c'' h' => ?_)
      exact Settles.thenAt (r := .guarded ..) ((h.append h').under rfl rfl)
  | .block _, c | .raw _, c | .brk _, c | .cont _, c | .goto _, c => foldAt_settles _ c

theorem transformAll_settles : (items : List Region) → ∀ c : Conditionals,
    Ends (transformAll foldAt items) c fun items' => Settles c (nodesOf items) (nodesOf items')
  | [], c => .pure (.refl _ _)
  | r :: rest, c => by
      refine .bind ((transform_settles r c).mono fun r' c' h => ?_)
      exact .bind ((transformAll_settles rest c').mono fun rest' c'' h' => .pure (h.append h'))

theorem transformCases_settles : (cases : List (CaseHead × Region)) → ∀ c : Conditionals,
    Ends (transformCases foldAt cases) c fun cases' => Settles c (nodesOfCases cases) (nodesOfCases cases')
  | [], c => .pure (.refl _ _)
  | (_, r) :: rest, c => by
      refine .bind ((transform_settles r c).mono fun r' c' h => ?_)
      exact .bind ((transformCases_settles rest c').mono fun rest' c'' h' => .pure (h.append h'))

theorem transformCatches_settles : (catches : List (CatchHead × Region)) → ∀ c : Conditionals,
    Ends (transformCatches foldAt catches) c fun catches' => Settles c (nodesOfCatches catches) (nodesOfCatches catches')
  | [], c => .pure (.refl _ _)
  | (_, r) :: rest, c => by
      refine .bind ((transform_settles r c).mono fun r' c' h => ?_)
      exact .bind ((transformCatches_settles rest c').mono fun rest' c'' h' => .pure (h.append h'))

end

/-- Folding keeps the loops and the jumps of a tree, and the offsets of the blocks. If nothing is folded, all blocks
stay. -/
theorem foldAll_settles (g : Graph) (root : Region) :
    g.Aligned (foldAll g root).1 ∧ Sheds root.nodes (foldAll g root).2.1.nodes ∧
      ((foldAll g root).2.2 = 0 →
        (foldAll g root).2.1.nodes.filterMap own? = root.nodes.filterMap own?) := by
  have hsettles := transform_settles root ⟨g, []⟩
  exact ⟨hsettles.aligned, hsettles.sheds, fun hnone => (hsettles.still (List.eq_nil_of_length_eq_zero hnone)).2⟩

section

variable (bs : List Nat) (c : Conditionals)

theorem transformAll_raw : Ends (transformAll foldAt (bs.map .raw)) c fun items c' => items = bs.map .raw ∧ c' = c := by
  induction bs with
  | nil => exact .pure ⟨rfl, rfl⟩
  | cons b bs ih =>
      change Ends (do return .raw b :: (← transformAll foldAt (bs.map .raw))) c _
      exact .bind (ih.mono fun items c' h => .pure ⟨congrArg (Region.raw b :: ·) h.1, h.2⟩)

theorem foldReturns_raw : Ends (foldReturns (bs.map .raw)) c fun items c' => items = bs.map .raw ∧ c' = c := by
  induction bs with
  | nil => exact .pure ⟨rfl, rfl⟩
  | cons b bs ih =>
      cases bs with
      | nil => exact .pure ⟨rfl, rfl⟩
      | cons b' bs =>
          change Ends (do return .raw b :: (← foldReturns ((b' :: bs).map .raw))) c _
          exact .bind (ih.mono fun items c' h => .pure ⟨congrArg (Region.raw b :: ·) h.1, h.2⟩)

theorem absorbAll_raw (b : Nat) :
    Ends (absorbAll (.raw b) (bs.map .raw)) c fun items c' => items = (b :: bs).map .raw ∧ c' = c := by
  induction bs generalizing b with
  | nil => exact .pure ⟨rfl, rfl⟩
  | cons b' bs ih =>
      change Ends (do return .raw b :: (← absorbAll (.raw b') (bs.map .raw))) c _
      exact .bind ((ih b').mono fun items c' h => .pure ⟨congrArg (Region.raw b :: ·) h.1, h.2⟩)

end

/-- Nothing is folded where all jumps are written out. -/
theorem foldAll_raw (g : Graph) (bs : List Nat) : foldAll g (.seq (bs.map .raw)) = (g, .seq (bs.map .raw), 0) := by
  have hsame : Ends ((Region.seq (bs.map .raw)).transform foldAt) ⟨g, []⟩ fun r c =>
      r = .seq (bs.map .raw) ∧ c = ⟨g, []⟩ := by
    refine .bind ((transformAll_raw bs _).mono ?_)
    rintro _ _ ⟨rfl, rfl⟩
    refine .bind (.bind ((foldReturns_raw bs _).mono ?_))
    rintro _ _ ⟨rfl, rfl⟩
    cases bs with
    | nil => exact .pure ⟨rfl, rfl⟩
    | cons b bs =>
        refine (absorbAll_raw bs _ b).mono fun items c h => .pure ?_
        rw [h.1]
        exact ⟨rfl, h.2⟩
  have hrun : ((Region.seq (bs.map .raw)).transform foldAt).run ⟨g, []⟩ = (.seq (bs.map .raw), ⟨g, []⟩) :=
    Prod.ext hsame.1 hsame.2
  rw [foldAll, hrun]
  rfl

end Conditionals

end JavaLift
