import JavaLift.Proofs.Region.Frames
import JavaLift.Proofs.Region.Placement

namespace JavaLift

open Around JavaLift.Frame

variable {g : Graph} {d : Dominance} {p q : Progress} {depth : Nat}

def unplaced (g : Graph) (p : Progress) : Nat := ((Finset.range g.size).filter fun b => b ∉ p.placed).card

theorem Placed.unplaced_le {bs : List Nat} (h : Placed p q bs) : unplaced g q ≤ unplaced g p :=
  Finset.card_le_card fun b hb => by
    rw [Finset.mem_filter] at hb ⊢
    exact ⟨hb.1, fun hp => hb.2 (h.mono b hp)⟩

theorem Placed.unplaced_lt {bs : List Nat} (h : Placed p q bs) {b : Nat} (hb : b < g.size) (hp : b ∉ p.placed)
    (hq : b ∈ q.placed) : unplaced g q < unplaced g p := by
  refine Finset.card_lt_card ((Finset.ssubset_iff_of_subset fun c hc => ?_).mpr ⟨b, ?_, ?_⟩)
  · rw [Finset.mem_filter] at hc ⊢
    exact ⟨hc.1, fun hp => hc.2 (h.mono c hp)⟩
  · exact Finset.mem_filter.mpr ⟨Finset.mem_range.mpr hb, hp⟩
  · exact fun hc => (Finset.mem_filter.mp hc).2 hq

theorem unplaced_pos {b : Nat} (hb : b < g.size) (hp : b ∉ p.placed) : 0 < unplaced g p :=
  Finset.card_pos.mpr ⟨b, Finset.mem_filter.mpr ⟨Finset.mem_range.mpr hb, hp⟩⟩

/-- A walk may begin at a block. It is given enough depth for all blocks that it may place: three steps each. -/
structure Ready (g : Graph) (d : Dominance) (depth : Nat) (s : Scope) (asBody : Bool) (b : Nat) (p : Progress) :
    Prop where
  lt : b < g.size
  nested : Nested g d s.frames
  allowed : s.allowed = none
  clear : asBody = false → Clear s.frames b
  body : asBody = true → b ∉ p.placed ∧ Inside s.frames b
  depth : 3 * unplaced g p + 1 ≤ depth + (if asBody then 2 else if s.frames = [] ∧ b ∉ p.placed then 1 else 0)

structure Going (g : Graph) (d : Dominance) (depth : Nat) (s : Scope) (b : Nat) (p : Progress) : Prop where
  lt : b < g.size
  nested : Nested g d s.frames
  allowed : s.allowed = none
  inside : Inside s.frames b
  depth : 3 * unplaced g p + 1 ≤ depth

/-- What a walk from a block returns. A walk that nothing is around carries its first block. -/
structure Followed (g : Graph) (d : Dominance) (s : Scope) (asBody : Bool) (b : Nat) (p : Progress)
    (items : List Region) :
    Prop where
  fits : FitsAll g (d.latches g) (s.frames.map around) b items s.follow
  opens : asBody = true → items.head?.any Region.isOpening = true
  carried : s = .outermost → b ∉ p.placed → b ∈ Region.carriersOf items

def Follows (g : Graph) (d : Dominance) (depth : Nat) (walk : Region.Walk) : Prop :=
  ∀ s asBody b p, Ready g d depth s asBody b p → Ends (walk s asBody b) p fun items _ => Followed g d s asBody b p items

structure Next (g : Graph) (s : Scope) (next : Option Nat) : Prop where
  lt : ∀ n ∈ next, n < g.size
  clear : ∀ n ∈ next, Clear s.frames n

theorem Next.none {s : Scope} : Next g s none := ⟨nofun, nofun⟩

namespace Going

variable {s : Scope} {b n : Nat}

theorem later (h : Going g d depth s b p) {bs : List Nat} (hpq : Placed p q bs) : Going g d depth s b q :=
  ⟨h.lt, h.nested, h.allowed, h.inside, by have := hpq.unplaced_le (g := g); have := h.depth; omega⟩

theorem next (hg : g.Formed) (hd : d.Loops g) (h : Going g d depth s b p) (hn : n ∈ g.succs b) : Next g s (some n) := by
  refine ⟨?_, ?_⟩
  · rintro _ ⟨⟩
    exact hg.succs_lt b h.lt n hn
  · rintro _ ⟨⟩
    exact h.nested.clear hd h.inside hn

theorem ready (hg : g.Formed) (hd : d.Loops g) (h : Going g d depth s b p) (hn : n ∈ g.succs b) (follow : Option Nat) :
    Ready g d depth { s with follow := follow } false n p where
  lt := hg.succs_lt b h.lt n hn
  nested := h.nested
  allowed := h.allowed
  clear _ := h.nested.clear hd h.inside hn
  body := nofun
  depth := Nat.le_add_right_of_le h.depth

end Going

theorem mergeOf_next (hd : d.Loops g) {s : Scope} {b : Nat} : Next g s (Region.mergeOf d s b) := by
  have hmerge : ∀ n ∈ Region.mergeOf d s b, n ∈ d.ipdomOf b ∧ s.accepts n = true := by
    intro n hn
    simpa [Region.mergeOf, Option.filter_eq_some_iff] using hn
  refine ⟨fun n hn => hd.ipdom_lt b n (hmerge n hn).1, fun n hn header exit body latch hf => ?_⟩
  have haccepts := (hmerge n hn).2
  simp only [Scope.accepts, Bool.and_eq_true, Bool.not_eq_true', List.any_eq_false] at haccepts
  have hne : ¬ (header == n) = true := haccepts.2 _ hf
  exact fun he => hne (by simp [he])

theorem branchTo_fall {b fall target : Nat} (h : g.succs b = [fall, target]) : g.branchTo b false = some fall := by
  simp [Graph.branchTo, h]

theorem branchTo_target {b fall target : Nat} (h : g.succs b = [fall, target]) : g.branchTo b true = some target := by
  simp [Graph.branchTo, h]

namespace Region

variable {walk : Walk}

section

variable (hg : g.Formed) (hd : d.Loops g) (hw : Follows g d depth walk) (hp : Places walk)
include hg hd hw

theorem arm_fits {s : Scope} {b n : Nat} (follow : Option Nat) (hs : Going g d depth s b p) (hn : n ∈ g.succs b) :
    Ends (walk { s with follow := follow } false n) p fun items _ =>
      ∃ m, Passes m follow ∧ Fits g (d.latches g) (s.frames.map around) n (ofList items) m :=
  (hw _ false n p (hs.ready hg hd hn follow)).mono fun _ _ h => fits_ofList h.1

include hp

theorem arms_fits {s : Scope} {b fall target : Nat} {merge : Option Nat} (hs : Going g d depth s b p)
    (hif : (g.block b).endsInIf = true) (hsuccs : g.succs b = [fall, target]) :
    Ends (arms walk s b fall target merge) p fun r _ =>
      Fits g (d.latches g) (s.frames.map around) b r merge ∧ r.isOpening = true := by
  have hfall : fall ∈ g.succs b := by simp [hsuccs]
  have htarget : target ∈ g.succs b := by simp [hsuccs]
  refine .ite (fun hm => ?_) fun _ => .ite (fun hm => ?_) fun _ => ?_
  · refine .bind ((arm_fits hg hd hw merge hs hfall).mono fun items q h => .pure ?_)
    exact ⟨⟨rfl, hif, ⟨fall, branchTo_fall hsuccs, h⟩, target, branchTo_target hsuccs, hm⟩, rfl⟩
  · refine .bind ((arm_fits hg hd hw merge hs htarget).mono fun items q h => .pure ?_)
    exact ⟨⟨rfl, hif, ⟨target, branchTo_target hsuccs, h⟩, fall, branchTo_fall hsuccs, hm⟩, rfl⟩
  · have hthen := (arm_fits hg hd hw merge hs hfall).and (hp { s with follow := merge } false fall p nofun)
    refine .bind (hthen.mono fun items q h => ?_)
    refine .bind ((arm_fits hg hd hw merge (hs.later h.2) htarget).mono fun items' q' h' => .pure ?_)
    exact ⟨⟨rfl, hif, ⟨fall, branchTo_fall hsuccs, h.1⟩, target, branchTo_target hsuccs, h'⟩, rfl⟩

theorem branchAt_fits {s : Scope} {b : Nat} (hs : Going g d depth s b p) (hif : (g.block b).endsInIf = true) :
    Ends (branchAt g d walk s b) p fun r _ =>
      (Fits g (d.latches g) (s.frames.map around) b r.1 r.2 ∧ r.1.isOpening = true) ∧ Next g s r.2 := by
  have hexit : ¬ (g.block b).isExit = true := fun h => by
    have := Graph.after_of_exit h
    rw [Graph.after_of_if hif] at this
    cases this
  have honward := hg.onward b hs.lt hexit
  have hlength := hg.branch b hs.lt hif
  unfold branchAt
  split
  · rename_i fall target hsuccs
    have hfall : fall ∈ g.succs b := by simp [hsuccs]
    have htarget : target ∈ g.succs b := by simp [hsuccs]
    split
    · rename_i m hmerge
      exact .bind ((arms_fits hg hd hw hp hs hif hsuccs).mono fun r q h => .pure ⟨h, hmerge ▸ mergeOf_next hd⟩)
    · refine .get (.ite (fun _ => ?_) fun _ => .ite (fun _ => ?_) fun _ => ?_)
      · refine .bind ((arm_fits hg hd hw none hs htarget).mono fun items q h => .pure ⟨?_, hs.next hg hd hfall⟩)
        obtain ⟨m, hm, h⟩ := h
        exact ⟨⟨rfl, hif, ⟨target, branchTo_target hsuccs, m, hm.of_none, h⟩, fall, branchTo_fall hsuccs, rfl⟩, rfl⟩
      · refine .bind ((arm_fits hg hd hw none hs hfall).mono fun items q h => .pure ⟨?_, hs.next hg hd htarget⟩)
        obtain ⟨m, hm, h⟩ := h
        exact ⟨⟨rfl, hif, ⟨fall, branchTo_fall hsuccs, m, hm.of_none, h⟩, target, branchTo_target hsuccs, rfl⟩, rfl⟩
      · exact .bind ((arms_fits hg hd hw hp hs hif hsuccs).mono fun r q h => .pure ⟨h, .none⟩)
  · rename_i only hsuccs
    have hto (x : Bool) : g.branchTo b x = some only := by simp [Graph.branchTo, hsuccs]
    refine .pure ⟨⟨⟨rfl, hif, ⟨only, hto _, some only, fun _ h => h, rfl⟩, only, hto _, rfl⟩, rfl⟩, ?_⟩
    exact hs.next hg hd (by simp [hsuccs])
  · rename_i htwo hone
    cases hsuccs : g.succs b with
    | nil => exact absurd hsuccs honward
    | cons x xs =>
        cases xs with
        | nil => exact absurd hsuccs (hone x)
        | cons y ys =>
            rw [hsuccs] at hlength
            obtain rfl : ys = [] := by simpa using hlength
            exact absurd hsuccs (htwo x y)

end

section

variable {b default : Nat} {keys : List Int} {targets : List Nat} {merge : Option Nat} {keyed : List (Nat × Int)}

theorem mem_keyBlocks {op : Option Nat} (hop : (g.block b).exitOp? = some (.switchOn keys targets op)) {e : Nat × Int} :
    e ∈ keyBlocks g keys targets ↔ ∃ n, g.entryOf b n = some e := by
  simp only [keyBlocks, Graph.entryOf, hop, List.mem_filterMap, Option.bind_eq_some_iff]
  constructor
  · rintro ⟨a, ha, he⟩
    obtain ⟨n, hn⟩ := List.mem_iff_getElem?.mp ha
    exact ⟨n, a, hn, he⟩
  · rintro ⟨n, a, hn, he⟩
    exact ⟨a, List.mem_iff_getElem?.mpr ⟨n, hn⟩, he⟩

theorem mem_caseTargets (hkeyed : ∀ e ∈ keyed, e.1 < g.size) {t : Nat} :
    t ∈ caseTargets g keyed default merge ↔
      ((∃ e ∈ keyed, e.1 = t) ∨ t = default) ∧ ¬ (merge = some default ∧ t = default) := by
  have hnamed (t : Nat) : t ∈ (List.range g.size).filter (fun b => keyed.any fun e => e.1 == b) ↔
    ∃ e ∈ keyed, e.1 = t := by
    simp only [List.mem_filter, List.mem_range, List.any_eq_true, beq_iff_eq, and_iff_right_iff_imp]
    rintro ⟨e, he, rfl⟩
    exact hkeyed e he
  have hall (t : Nat) : t ∈ (if ((List.range g.size).filter fun b => keyed.any fun e => e.1 == b).contains default then
      (List.range g.size).filter fun b => keyed.any fun e => e.1 == b
      else (List.range g.size).filter (fun b => keyed.any fun e => e.1 == b) ++ [default]) ↔
        (∃ e ∈ keyed, e.1 = t) ∨ t = default := by
    split
    · rename_i hdefault
      rw [List.contains_iff_mem, hnamed] at hdefault
      rw [hnamed]
      exact ⟨.inl, fun h => h.elim id fun h => h ▸ hdefault⟩
    · rw [List.mem_append, hnamed, List.mem_singleton]
  unfold caseTargets
  rw [List.mem_mergeSort]
  by_cases hm : merge = some default
  · rw [if_pos hm, List.mem_filter, hall]
    simp [hm]
  · rw [if_neg hm, hall]
    simp [hm]

def headOf (keyed : List (Nat × Int)) (default t : Nat) : CaseHead :=
  ⟨(keyed.filter fun k => k.1 == t).map (·.2), t == default, t⟩

theorem caseStart_of_findIdx? {heads : List CaseHead} {bodies : List Region} (hlen : bodies.length = heads.length)
    {p : CaseHead → Bool} {t i : Nat} (hp : ∀ h ∈ heads, p h = true → h.target = t) (hi : heads.findIdx? p = some i) :
    caseStart ((heads.zip bodies).drop i) none = some t := by
  obtain ⟨hlt, hpi, -⟩ := List.findIdx?_eq_some_iff_getElem.mp hi
  have hlt' : i < (heads.zip bodies).length := by simpa [hlen] using hlt
  rw [List.drop_eq_getElem_cons hlt', caseStart, List.getElem_zip]
  exact congrArg some (hp _ (List.getElem_mem hlt) hpi)

/-- The case that is entered is the one at the block that the switch leads to. If there is none, the switch leads past
its cases. -/
theorem caseOf_heads {op : Option Nat} (hop : (g.block b).exitOp? = some (.switchOn keys targets op))
    (hsuccs : (g.succs b).head? = some default) (hlt : ∀ e ∈ keyBlocks g keys targets, e.1 < g.size)
    {heads : List CaseHead}
    (hheads : heads =
      (caseTargets g (keyBlocks g keys targets) default merge).map (headOf (keyBlocks g keys targets) default))
    {bodies : List Region} (hlen : bodies.length = heads.length) (n : Nat) :
    ∃ t ∈ g.selectTo b n, match g.caseOf b n heads with
      | some i => caseStart ((heads.zip bodies).drop i) none = some t
      | none => merge = some t := by
  have hdefault : ∀ h ∈ heads, h.isDefault = true → h.target = default := by
    intro h hh hd
    obtain ⟨t, -, rfl⟩ := List.mem_map.mp (hheads ▸ hh)
    simpa [headOf] using hd
  have hno (h : heads.findIdx? (·.isDefault) = none) : merge = some default := by
    by_contra hm
    have hmem : headOf (keyBlocks g keys targets) default default ∈ heads := by
      rw [hheads]
      exact List.mem_map_of_mem ((mem_caseTargets hlt).mpr ⟨.inr rfl, fun h => hm h.1⟩)
    simpa [headOf] using List.findIdx?_eq_none_iff.mp h _ hmem
  cases hentry : g.entryOf b n with
  | none =>
      refine ⟨default, by simp [Graph.selectTo, hentry, hsuccs], ?_⟩
      have hnone : heads.findIdx? (fun h => (none : Option (Nat × Int)).any fun e =>
        h.target == e.1 && h.keys.contains e.2) =
          none := List.findIdx?_eq_none_iff.mpr fun _ _ => rfl
      have hcase : g.caseOf b n heads = heads.findIdx? (·.isDefault) := by rw [Graph.caseOf, hentry, hnone]; rfl
      rw [hcase]
      cases hi : heads.findIdx? (·.isDefault) with
      | none => exact hno hi
      | some i => exact caseStart_of_findIdx? hlen hdefault hi
  | some e =>
      obtain ⟨t, key⟩ := e
      refine ⟨t, by simp [Graph.selectTo, hentry], ?_⟩
      have hkeyed : (t, key) ∈ keyBlocks g keys targets := (mem_keyBlocks hop).mpr ⟨n, hentry⟩
      simp only [Graph.caseOf, hentry, Option.any_some]
      cases hi : heads.findIdx? fun h => h.target == t && h.keys.contains key with
      | some i =>
          refine caseStart_of_findIdx? hlen (fun h _ hp => ?_) hi
          simp only [Bool.and_eq_true, beq_iff_eq] at hp
          exact hp.1
      | none =>
          have hout : ¬ t ∈ caseTargets g (keyBlocks g keys targets) default merge := by
            intro ht
            have hmem : headOf (keyBlocks g keys targets) default t ∈ heads := hheads ▸ List.mem_map_of_mem ht
            have := List.findIdx?_eq_none_iff.mp hi _ hmem
            simp [headOf, hkeyed] at this
          have hpast : merge = some default ∧ t = default := by
            by_contra hpast
            exact hout ((mem_caseTargets hlt).mpr ⟨.inl ⟨_, hkeyed, rfl⟩, hpast⟩)
          obtain ⟨hm, rfl⟩ := hpast
          have hnone : heads.findIdx? (·.isDefault) = none := by
            refine List.findIdx?_eq_none_iff.mpr fun h hh => ?_
            obtain ⟨t', ht', rfl⟩ := List.mem_map.mp (hheads ▸ hh)
            have hne : t' ≠ t := fun he => hout (he ▸ ht')
            simpa [headOf] using hne
          simpa [hnone] using hm

end

section

variable (hg : g.Formed) (hd : d.Loops g) (hw : Follows g d depth walk) (hp : Places walk)
include hg hd hw

omit hg hd hw in
theorem fits_switch {latches : List Nat} {c : List Around} {b : Nat} {k : Option Nat} {heads : List CaseHead}
    {bodies : List Region}
    (hlen : bodies.length = heads.length) (hswitch : (g.block b).endsInSwitch = true)
    (hselect : ∀ n, ∃ t ∈ g.selectTo b n, match g.caseOf b n heads with
      | some i => caseStart ((heads.zip bodies).drop i) none = some t
      | none => k = some t) (hcases : FitsCases g latches (⟨none, k, none⟩ :: c) (heads.zip bodies) k) :
    Fits g latches c b (.switch b (heads.zip bodies)) k := by
  have hheads : (heads.zip bodies).map (·.1) = heads := List.map_fst_zip (Nat.le_of_eq hlen.symm)
  refine ⟨rfl, hswitch, fun n => ?_, hcases⟩
  rw [hheads]
  exact hselect n

theorem caseBody_fits {s : Scope} {b target : Nat} {merge : Option Nat} (next : Option Nat) (hs : Going g d depth s b p)
    (hswitch : s.frames.head? = some (.switch merge)) (ht : target ∈ g.succs b) :
    Ends (caseBody g walk s merge next target) p fun r _ =>
      ∃ m, Passes m next ∧ Fits g (d.latches g) (s.frames.map around) target r m := by
  refine .ite (fun hm => .pure ⟨none, nofun, ?_⟩) fun _ => .get (.ite (fun _ => ?_) fun _ => ?_)
  · simp only [Fits, breakTo, List.head?_map, hswitch]
    exact hm
  · exact .bind (.modify (.pure ⟨none, nofun, rfl, hg.succs_lt b hs.lt target ht⟩))
  · exact .bind ((arm_fits hg hd hw next hs ht).mono fun items q h => .pure h)

include hp

theorem caseBodies_fits {s : Scope} {b : Nat} {merge : Option Nat} (hs : Going g d depth s b p)
    (hswitch : s.frames.head? = some (.switch merge)) (entries : List Nat) (hentries : ∀ t ∈ entries, t ∈ g.succs b) :
    Ends (caseBodies g walk s merge entries) p fun bodies _ => ∀ heads : List CaseHead, heads.map (·.target) = entries →
      ∀ k, FitsCases g (d.latches g) (s.frames.map around) (heads.zip bodies) k := by
  induction entries generalizing p with
  | nil =>
      refine .pure fun heads hheads k => ?_
      rw [List.zip_nil_right]
      exact trivial
  | cons target rest ih =>
      rw [List.forall_mem_cons] at hentries
      have hbody := (caseBody_fits hg hd hw rest.head? hs hswitch hentries.1).and
        (caseBody_places hp s merge rest.head? target p)
      refine .bind (hbody.mono fun r q h => ?_)
      have hrest := (ih (hs.later h.2) hentries.2).and (caseBodies_length g walk s merge rest q)
      refine .bind (hrest.mono fun bodies q' h' => .pure fun heads hheads k => ?_)
      obtain ⟨⟨m, hm, hr⟩, -⟩ := h
      cases heads with
      | nil => cases hheads
      | cons head heads =>
          obtain ⟨htarget, hrest⟩ : head.target = target ∧ heads.map (·.target) = rest := List.cons.inj hheads
          refine ⟨⟨m, ?_, htarget ▸ hr⟩, h'.1 heads hrest k⟩
          cases rest with
          | nil => exact hm.of_none
          | cons t rest =>
              cases heads with
              | nil => cases hrest
              | cons head' heads =>
                  cases bodies with
                  | nil => simp at h'
                  | cons body bodies =>
                      obtain rfl : head'.target = t := (List.cons.inj hrest).1
                      exact hm

theorem switchAt_fits {s : Scope} {b : Nat} {keys : List Int} {targets : List Nat} {op : Option Nat}
    (hs : Going g d depth s b p) (hop : (g.block b).exitOp? = some (.switchOn keys targets op)) :
    Ends (switchAt g d walk s b keys targets) p fun r _ =>
      (Fits g (d.latches g) (s.frames.map around) b r.1 r.2 ∧ r.1.isOpening = true) ∧ Next g s r.2 := by
  have hswitch : (g.block b).endsInSwitch = true := by simp [Block.endsInSwitch_eq, hop, Op.isSwitch]
  have hexit : ¬ (g.block b).isExit = true := fun h => by
    have := Graph.after_of_exit h
    rw [Graph.after_of_switch hswitch] at this
    cases this
  have honward := hg.onward b hs.lt hexit
  unfold switchAt
  split
  · exact absurd ‹_› honward
  · rename_i default rest hsuccs
    have hkeyed : ∀ e ∈ keyBlocks g keys targets, e.1 ∈ g.succs b := by
      intro e he
      obtain ⟨n, hn⟩ := (mem_keyBlocks hop).mp he
      exact hg.table b hs.lt n e hn
    have hlt : ∀ e ∈ keyBlocks g keys targets, e.1 < g.size := fun e he => hg.succs_lt b hs.lt _ (hkeyed e he)
    have hentries : ∀ t ∈ caseTargets g (keyBlocks g keys targets) default (mergeOf d s b), t ∈ g.succs b := by
      intro t ht
      rcases ((mem_caseTargets hlt).mp ht).1 with ⟨e, he, rfl⟩ | rfl
      · exact hkeyed e he
      · simp [hsuccs]
    have hs' : Going g d depth { s with frames := .switch (mergeOf d s b) :: s.frames } b p := by
      refine ⟨hs.lt, hs.nested, hs.allowed, fun header exit body latch hf => ?_, hs.depth⟩
      rcases List.mem_cons.mp hf with hf | hf
      · cases hf
      · exact hs.inside header exit body latch hf
    have hbodies := (caseBodies_fits hg hd hw hp hs' rfl _ hentries).and
      (caseBodies_length g walk _ (mergeOf d s b) _ p)
    refine .bind (hbodies.mono fun bodies q h => .pure ⟨⟨?_, rfl⟩, mergeOf_next hd⟩)
    have hlen : bodies.length = ((caseTargets g (keyBlocks g keys targets) default (mergeOf d s b)).map
        (headOf (keyBlocks g keys targets) default)).length := by rw [List.length_map, h.2]
    have hselect := caseOf_heads hop (by simp [hsuccs]) hlt rfl hlen
    exact fits_switch hlen hswitch hselect (h.1 _ (by simp [Function.comp_def]) _)

structure StepFits (g : Graph) (d : Dominance) (s : Scope) (b : Nat) (p : Progress) (r : List Region × Option Nat) :
    Prop where
  fits : FitsAll g (d.latches g) (s.frames.map around) b r.1 r.2
  next : Next g s r.2
  carried : b ∈ carriersOf r.1 ∨ r.2 = none ∧ (s.frames = [] → b ∈ p.placed)

omit hg hd hw hp in
theorem StepFits.of_opening {s : Scope} {b : Nat} {r : Region} {next : Option Nat}
    (h : Fits g (d.latches g) (s.frames.map around) b r next ∧ r.isOpening = true) (hnext : Next g s next) :
    StepFits g d s b p ([r], next) :=
  ⟨h.1.all, hnext, .inl (by simpa [carriersOf] using h.1.mem_carriers h.2)⟩

theorem plainAt_fits {s : Scope} {b : Nat} (hs : Going g d depth s b (p.place b)) :
    Ends (plainAt g d walk s b) p fun r _ => StepFits g d s b p r ∧ r.1.head?.any isOpening = true := by
  have hexit (h : (g.block b).isExit = true) :
    StepFits g d s b p ([.block b], none) ∧ [block b].head?.any isOpening = true :=
    ⟨.of_opening ⟨⟨rfl, .inl h⟩, rfl⟩ .none, rfl⟩
  have hplain (hafter : g.after b = .to (g.succs b).head?) (h : ¬ (g.block b).isExit = true) :
      StepFits g d s b p ([.block b], (g.succs b).head?) ∧ [block b].head?.any isOpening = true := by
    have honward := hg.onward b hs.lt h
    cases hsuccs : g.succs b with
    | nil => exact absurd hsuccs honward
    | cons n rest =>
        rw [hsuccs] at hafter
        exact ⟨.of_opening ⟨⟨rfl, .inr (.inl ⟨n, hafter, rfl⟩)⟩, rfl⟩ (hs.next hg hd (by simp [hsuccs])), rfl⟩
  refine .modify ?_
  cases hop : (g.block b).exitOp? with
  | none =>
      exact .pure (hplain (by simp [Graph.after, Block.endsInIf_eq, Block.endsInSwitch_eq, Block.isExit_eq, hop])
        (by simp [Block.isExit_eq, hop]))
  | some op =>
      cases op with
      | jumpIf c target =>
          refine .bind ((branchAt_fits hg hd hw hp hs (by simp [Block.endsInIf_eq, hop, Op.isIf])).mono fun r q h =>
            .pure ?_)
          exact ⟨.of_opening h.1 h.2, h.1.2⟩
      | switchOn keys targets default =>
          exact .bind ((switchAt_fits hg hd hw hp hs hop).mono fun r q h => .pure ⟨.of_opening h.1 h.2, h.1.2⟩)
      | ret => exact .pure (hexit (by simp [Block.isExit_eq, hop]))
      | throw => exact .pure (hexit (by simp [Block.isExit_eq, hop]))
      | _ => exact .pure (hplain (Graph.after_of_exitOp? hop ⟨rfl, rfl⟩ (by simp)) (by simp [Block.isExit_eq, hop]))

end

end Region

end JavaLift
