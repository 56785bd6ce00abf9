import JavaLift.Proofs.Fold.Outcomes

namespace JavaLift

open Region

variable {o : Outcomes} {found : Nat → Option (CmpOp × List Arg)} {targets : List Nat} {g g₁ g₂ : Graph}

theorem Graph.machine_agrees {bs : List Nat} (hb : ∀ b ∈ bs, g₁.block b = g.block b)
    (hat : ∀ offset, g₁.blockAt? offset = g.blockAt? offset) :
    (g.machine o found targets).Agrees (fun _ => True) (g₁.machine o found targets) bs := by
  have hsame {α : Type} {a a' : Act Trace α} (h : a' = a) : Act.Agrees (fun _ => True) a a' := fun s _ => ⟨trivial, h ▸ rfl⟩
  have hat' : g₁.blockAt? = g.blockAt? := funext hat
  refine ⟨fun b h => hsame ?_, fun b h _ => hsame ?_, fun _ _ => hsame rfl, fun b h _ => hsame ?_, fun _ => hsame rfl,
    fun b h => hsame ?_, fun _ => hsame rfl⟩
  · simp only [machine, hb b h]
  · simp only [machine, comparisonAt, hb b h]
  · simp only [machine, selectAt, hb b h]
  · simp only [machine, leapFrom, succs, comparisonAt, hb b h, hat']

theorem Graph.within_congr {r : Region} (hb : ∀ b ∈ carriers r, g₁.block b = g.block b)
    (hat : ∀ offset, g₁.blockAt? offset = g.blockAt? offset) (n : Nat) (entry : Option Nat) :
    (g₁.machine o found targets).within n entry r = (g.machine o found targets).within n entry r :=
  Act.ext fun s => (Machine.within_agrees (machine_agrees hb hat) n entry r (List.Subset.refl _) s trivial).2

theorem skips_some (t : Nat) (r : Region) : skips (some t) r = !(carriers r).contains t := rfl

/-- Whether execution goes on inside a region is not changed by replacing it, if it may else go on at other blocks only. -/
theorem skips_eq {r r' : Region} {cs cs' : List Nat} {entry : Option Nat} (hsub : (carriers r').Sublist (carriers r))
    (hcs : cs' ⊆ cs) (hdisj : (carriers r).Disjoint cs) (hentry : ∀ t ∈ entry, t ∈ carriers r' ++ cs') :
    skips entry r' = skips entry r := by
  cases entry with
  | none => rfl
  | some t =>
      have hiff : t ∈ carriers r' ↔ t ∈ carriers r := by
        refine ⟨fun ht => hsub.subset ht, fun ht => ?_⟩
        exact (List.mem_append.mp (hentry t rfl)).resolve_right fun hc => hdisj ht (hcs hc)
      simp [skips_some, hiff]

/-- Every block outside the region is the same, and the replacement does what the region did. -/
structure Replaces (o : Outcomes) (found : Nat → Option (CmpOp × List Arg)) (targets : List Nat) (g : Graph)
    (r : Region) (g' : Graph) (r' : Region) : Prop where
  size : g'.size = g.size
  starts : ∀ offset, g'.blockAt? offset = g.blockAt? offset
  frame : ∀ b, b ∉ carriers r → g'.block b = g.block b
  sub : (carriers r').Sublist (carriers r)
  same : ∀ n entry, (∀ t ∈ entry, t ∈ carriers r') →
    (g'.machine o found targets).within n entry r' = (g.machine o found targets).within n entry r

namespace Replaces

variable {r r' r'' : Region} {rest rest' : List Region}

theorem refl (g : Graph) (r : Region) : Replaces o found targets g r g r :=
  ⟨rfl, fun _ => rfl, fun _ _ => rfl, .refl _, fun _ _ _ => rfl⟩

theorem trans (h : Replaces o found targets g r g₁ r') (h' : Replaces o found targets g₁ r' g₂ r'') :
    Replaces o found targets g r g₂ r'' where
  size := h'.size.trans h.size
  starts offset := (h'.starts offset).trans (h.starts offset)
  frame b hb := (h'.frame b fun hb' => hb (h.sub.subset hb')).trans (h.frame b hb)
  sub := h'.sub.trans h.sub
  same n entry hentry := (h'.same n entry hentry).trans (h.same n entry fun t ht => h'.sub.subset (hentry t ht))

/-- A region does the same after blocks outside it have changed. -/
theorem outside (h : Replaces o found targets g r g₁ r') {s : Region} (hs : (carriers r).Disjoint (carriers s)) (n : Nat)
    (entry : Option Nat) :
    (g₁.machine o found targets).within n entry s = (g.machine o found targets).within n entry s :=
  Graph.within_congr (fun b hb => h.frame b fun hr => hs hr hb) h.starts n entry

/-- A replacement still does the same after blocks outside the region have changed. -/
theorem same_after (h : Replaces o found targets g r g₁ r') {s s' : Region} (h' : Replaces o found targets g₁ s g₂ s')
    (hs : (carriers r).Disjoint (carriers s)) (n : Nat) (entry : Option Nat) (hentry : ∀ t ∈ entry, t ∈ carriers r') :
    (g₂.machine o found targets).within n entry r' = (g.machine o found targets).within n entry r :=
  (h'.outside (fun _ hb hb' => hs (h.sub.subset hb') hb) n entry).trans (h.same n entry hentry)

/-- A replacement after another one does what its region did before both. -/
theorem same_before (h : Replaces o found targets g r g₁ r') {s s' : Region} (h' : Replaces o found targets g₁ s g₂ s')
    (hs : (carriers r).Disjoint (carriers s)) (n : Nat) (entry : Option Nat) (hentry : ∀ t ∈ entry, t ∈ carriers s') :
    (g₂.machine o found targets).within n entry s' = (g.machine o found targets).within n entry s :=
  (h'.same n entry hentry).trans (h.outside hs n entry)

theorem frame_both (h : Replaces o found targets g r g₁ r') {s s' : Region} (h' : Replaces o found targets g₁ s g₂ s')
    {b : Nat} (hr : b ∉ carriers r) (hs : b ∉ carriers s) : g₂.block b = g.block b :=
  (h'.frame b hs).trans (h.frame b hr)

theorem cons (hn : (carriersOf (r :: rest)).Nodup) (h : Replaces o found targets g r g₁ r')
    (hrest : Replaces o found targets g₁ (.seq rest) g₂ (.seq rest')) :
    Replaces o found targets g (.seq (r :: rest)) g₂ (.seq (r' :: rest')) := by
  have hdisj : (carriers r).Disjoint (carriers (.seq rest)) := List.disjoint_of_nodup_append hn
  refine ⟨hrest.size.trans h.size, fun i => (hrest.starts i).trans (h.starts i), fun b hb => ?_, ?_,
    fun n entry hentry => ?_⟩
  · have hb' : b ∉ carriers r ∧ b ∉ carriersOf rest := by simpa [carriers, carriersOf] using hb
    exact h.frame_both hrest hb'.1 hb'.2
  · exact h.sub.append hrest.sub
  · have hskip : skips entry r' = skips entry r := skips_eq h.sub hrest.sub.subset hdisj hentry
    simp only [Machine.within, Machine.exec, Machine.execAll, hskip]
    split
    · rename_i hs
      exact h.same_before hrest hdisj n entry (mem_of_skips (hskip.trans hs) hentry)
    · rename_i hs
      have hhead := h.same_after hrest hdisj n entry (mem_of_not_skips (by rwa [hskip]))
      have htail := h.same_before hrest hdisj n none nofun
      simp only [Machine.within, Machine.exec] at hhead htail
      rw [hhead, htail]

theorem header_eq (h : Replaces o found targets g r g₁ r') {b : Nat} (hb : b ∉ carriers r) :
    (g₁.machine o found targets).visit b = (g.machine o found targets).visit b ∧
      (g₁.machine o found targets).test b = (g.machine o found targets).test b ∧
      (g₁.machine o found targets).select b = (g.machine o found targets).select b := by
  have := h.frame b hb
  refine ⟨?_, ?_, ?_⟩
  · simp only [Graph.machine, this]
  · simp only [Graph.machine, Graph.comparisonAt, this]
  · funext heads
    simp only [Graph.machine, Graph.selectAt, this]

theorem branch (header : Nat) (negated : Bool) (hn : header ∉ carriers r) (h : Replaces o found targets g r g₁ r') :
    Replaces o found targets g (.branch header negated r none) g₁ (.branch header negated r' none) := by
  obtain ⟨hvisit, htest, -⟩ := h.header_eq hn
  refine ⟨h.size, h.starts, fun b hb => h.frame b fun hb' => hb (List.mem_cons_of_mem _ hb'), h.sub.cons_cons _,
    fun n entry hentry => ?_⟩
  have hstart := h.same n none nofun
  simp only [Machine.within] at hstart
  simp only [Machine.within, Machine.exec, hvisit, htest, hstart]
  split
  · rfl
  · rename_i hbegins
    exact h.same n entry (mem_of_not_begins hbegins hentry)

theorem branchElse {e e' : Region} (header : Nat) (negated : Bool) (hn : (header :: (carriers r ++ carriers e)).Nodup)
    (h : Replaces o found targets g r g₁ r') (h' : Replaces o found targets g₁ e g₂ e') :
    Replaces o found targets g (.branch header negated r (some e)) g₂ (.branch header negated r' (some e')) := by
  obtain ⟨hheader, hn⟩ := List.nodup_cons.mp hn
  rw [List.mem_append, not_or] at hheader
  have hdisj : (carriers r).Disjoint (carriers e) := List.disjoint_of_nodup_append hn
  obtain ⟨hvisit, htest, -⟩ := h.header_eq hheader.1
  obtain ⟨hvisit', htest', -⟩ := h'.header_eq hheader.2
  refine ⟨h'.size.trans h.size, fun i => (h'.starts i).trans (h.starts i), fun b hb => ?_,
    (h.sub.append h'.sub).cons_cons _, fun n entry hentry => ?_⟩
  · have hb' : b ∉ carriers r ∧ b ∉ carriers e := by
      simp only [carriers, List.mem_cons, List.mem_append, not_or] at hb
      exact hb.2
    exact h.frame_both h' hb'.1 hb'.2
  · have hthen := h.same_after h' hdisj n none nofun
    have helse := h.same_before h' hdisj n none nofun
    simp only [Machine.within] at hthen helse
    simp only [Machine.within, Machine.exec, hvisit', htest', hvisit, htest, hthen, helse]
    split
    · rfl
    · rename_i hbegins
      have hin := mem_of_not_begins hbegins hentry
      have hskip : skips entry r' = skips entry r := skips_eq h.sub h'.sub.subset hdisj hin
      rw [hskip]
      split
      · rename_i hs
        exact h.same_before h' hdisj n entry (mem_of_skips (hskip.trans hs) hin)
      · rename_i hs
        exact h.same_after h' hdisj n entry (mem_of_not_skips (by rwa [hskip]))

/-- A loop does the same with its body replaced, by induction on the number of rounds. -/
theorem loop (kind : LoopKind) (header : Nat) (cond : Option Nat) (negated : Bool)
    (hn : (carriers (.loop kind header cond negated r)).Nodup) (h : Replaces o found targets g r g₁ r') :
    Replaces o found targets g (.loop kind header cond negated r) g₁ (.loop kind header cond negated r') := by
  have hround : (g₁.machine o found targets).round = (g.machine o found targets).round := rfl
  have hwithin : ∀ n, (g₁.machine o found targets).rounds n (.loop kind header cond negated r') =
        (g.machine o found targets).rounds n (.loop kind header cond negated r) →
      ∀ entry, (∀ t ∈ entry, t ∈ carriers (.loop kind header cond negated r')) →
        (g₁.machine o found targets).within n entry (.loop kind header cond negated r') =
          (g.machine o found targets).within n entry (.loop kind header cond negated r) := by
    intro n hrounds entry hentry
    cases kind with
    | whileDo =>
        obtain ⟨hvisit, -, -⟩ := h.header_eq (List.nodup_cons.mp hn).1
        have hstart := h.same n none nofun
        simp only [Machine.within] at hstart
        simp only [Machine.within, Machine.exec, hvisit, hround, hrounds, hstart]
        split
        · rfl
        · rename_i hbegins
          have hbody := h.same n entry (mem_of_not_begins hbegins hentry)
          simp only [Machine.within] at hbody
          rw [hbody]
    | doWhile | endless =>
        have hbody := h.same n entry hentry
        simp only [Machine.within] at hbody
        simp only [Machine.within, Machine.exec, hround, hrounds, hbody]
  have hrounds : ∀ n, (g₁.machine o found targets).rounds n (.loop kind header cond negated r') =
      (g.machine o found targets).rounds n (.loop kind header cond negated r) := by
    intro n
    induction n with
    | zero => rfl
    | succ n ih => exact hwithin n ih none nofun
  refine ⟨h.size, h.starts, fun b hb => h.frame b fun hb' => hb ?_, ?_, fun n entry hentry => ?_⟩
  · cases kind with
    | whileDo => exact List.mem_cons_of_mem _ hb'
    | doWhile | endless => exact hb'
  · cases kind with
    | whileDo => exact h.sub.cons_cons _
    | doWhile | endless => exact h.sub
  · exact hwithin n (hrounds n) entry hentry

end Replaces

theorem carriersOfCases_eq (cases : List (CaseHead × Region)) : carriersOfCases cases = carriersOf (cases.map (·.2)) := by
  induction cases with
  | nil => rfl
  | cons c cases ih => simp [carriersOfCases, carriersOf, ih]

theorem carriersOfCatches_eq (catches : List (CatchHead × Region)) :
    carriersOfCatches catches = carriersOf (catches.map (·.2)) := by
  induction catches with
  | nil => rfl
  | cons c catches ih => simp [carriersOfCatches, carriersOf, ih]

theorem carriers_subset_carriersOf {r : Region} {rs : List Region} (h : r ∈ rs) : carriers r ⊆ carriersOf rs := by
  induction rs with
  | nil => simp at h
  | cons s rs ih =>
      rcases List.mem_cons.mp h with rfl | h
      · exact List.subset_append_left _ _
      · exact List.Subset.trans (ih h) (List.subset_append_right _ _)

def SameUnder {β : Type} (o : Outcomes) (found : Nat → Option (CmpOp × List Arg)) (targets : List Nat) (g g' : Graph)
    (c c' : β × Region) : Prop :=
  c'.1 = c.1 ∧ (carriers c'.2).Sublist (carriers c.2) ∧
    ∀ n entry, (∀ t ∈ entry, t ∈ carriers c'.2) →
      (g'.machine o found targets).within n entry c'.2 = (g.machine o found targets).within n entry c.2

structure ReplacesEach {β : Type} (o : Outcomes) (found : Nat → Option (CmpOp × List Arg)) (targets : List Nat)
    (g : Graph) (cs : List (β × Region)) (g' : Graph) (cs' : List (β × Region)) : Prop where
  size : g'.size = g.size
  starts : ∀ offset, g'.blockAt? offset = g.blockAt? offset
  frame : ∀ b, b ∉ carriersOf (cs.map (·.2)) → g'.block b = g.block b
  each : List.Forall₂ (SameUnder o found targets g g') cs cs'

namespace ReplacesEach

variable {β : Type} {cs cs' : List (β × Region)}

theorem nil (g : Graph) : ReplacesEach o found targets g ([] : List (β × Region)) g [] :=
  ⟨rfl, fun _ => rfl, fun _ _ => rfl, .nil⟩

/-- The regions do what they did before another one was replaced. -/
theorem each_before {r r' : Region} (hdisj : (carriers r).Disjoint (carriersOf (cs.map (·.2))))
    (h : Replaces o found targets g r g₁ r') (hrest : ReplacesEach o found targets g₁ cs g₂ cs') :
    List.Forall₂ (SameUnder o found targets g g₂) cs cs' := by
  obtain ⟨hlen, hzip⟩ := List.forall₂_iff_zip.mp hrest.each
  refine List.forall₂_iff_zip.mpr ⟨hlen, fun {c c'} hc => ?_⟩
  obtain ⟨hhead, hsub, hsame⟩ := hzip hc
  have hin : carriers c.2 ⊆ carriersOf (cs.map (·.2)) :=
    carriers_subset_carriersOf (List.mem_map_of_mem (List.of_mem_zip hc).1)
  exact ⟨hhead, hsub, fun n entry hentry =>
    (hsame n entry hentry).trans (h.outside (fun _ hb hb' => hdisj hb (hin hb')) n entry)⟩

/-- A replacement does what its region did after others have been replaced. -/
theorem same_after {r r' : Region} (hdisj : (carriers r).Disjoint (carriersOf (cs.map (·.2))))
    (h : Replaces o found targets g r g₁ r') (hrest : ReplacesEach o found targets g₁ cs g₂ cs') (n : Nat)
    (entry : Option Nat) (hentry : ∀ t ∈ entry, t ∈ carriers r') :
    (g₂.machine o found targets).within n entry r' = (g.machine o found targets).within n entry r :=
  (Graph.within_congr (fun b hb => hrest.frame b fun hb' => hdisj (h.sub.subset hb) hb') hrest.starts n entry).trans
    (h.same n entry hentry)

theorem frame_both {r r' : Region} (h : Replaces o found targets g r g₁ r')
    (hrest : ReplacesEach o found targets g₁ cs g₂ cs') {b : Nat}
    (hb : b ∉ carriers r ++ carriersOf (cs.map (·.2))) : g₂.block b = g.block b := by
  rw [List.mem_append, not_or] at hb
  exact (hrest.frame b hb.2).trans (h.frame b hb.1)

theorem cons (head : β) {r r' : Region} (hn : (carriers r ++ carriersOf (cs.map (·.2))).Nodup)
    (h : Replaces o found targets g r g₁ r') (hrest : ReplacesEach o found targets g₁ cs g₂ cs') :
    ReplacesEach o found targets g ((head, r) :: cs) g₂ ((head, r') :: cs') := by
  have hdisj := List.disjoint_of_nodup_append hn
  refine ⟨hrest.size.trans h.size, fun i => (hrest.starts i).trans (h.starts i), fun b hb => frame_both h hrest hb,
    .cons ⟨rfl, h.sub, same_after hdisj h hrest⟩ (each_before hdisj h hrest)⟩

theorem heads_eq (h : List.Forall₂ (SameUnder o found targets g g₁) cs cs') : cs'.map (·.1) = cs.map (·.1) := by
  induction h with
  | nil => rfl
  | cons hc _ ih => simp [hc.1, ih]

theorem sub (h : List.Forall₂ (SameUnder o found targets g g₁) cs cs') :
    (carriersOf (cs'.map (·.2))).Sublist (carriersOf (cs.map (·.2))) := by
  induction h with
  | nil => exact .refl _
  | cons hc _ ih => exact hc.2.1.append ih

theorem skips_eq {c c' : β × Region} (h : SameUnder o found targets g g₁ c c')
    (hrest : List.Forall₂ (SameUnder o found targets g g₁) cs cs')
    (hn : (carriersOf ((c :: cs).map (·.2))).Nodup) {entry : Option Nat}
    (hentry : ∀ t ∈ entry, t ∈ carriersOf ((c' :: cs').map (·.2))) : skips entry c'.2 = skips entry c.2 :=
  JavaLift.skips_eq h.2.1 (sub hrest).subset (List.disjoint_of_nodup_append hn) hentry

/-- Only the first region of a list is executed from a block inside it. -/
theorem none_of_later {bs : List Nat} {i : Nat} {entry : Option Nat} (hentry : ∀ t ∈ entry, i + 1 = 0 ∧ t ∈ bs) :
    entry = none := by
  cases entry with
  | none => rfl
  | some t => exact absurd (hentry t rfl).1 (Nat.succ_ne_zero i)

theorem execCases_eq {cases cases' : List (CaseHead × Region)}
    (h : List.Forall₂ (SameUnder o found targets g g₁) cases cases') (hn : (carriersOf (cases.map (·.2))).Nodup)
    (n i : Nat) (entry : Option Nat) (hentry : ∀ t ∈ entry, i = 0 ∧ t ∈ carriersOf (cases'.map (·.2))) :
    (g₁.machine o found targets).execCases ((g₁.machine o found targets).rounds n) i entry cases' =
      (g.machine o found targets).execCases ((g.machine o found targets).rounds n) i entry cases := by
  induction h generalizing i entry with
  | nil => rfl
  | @cons c c' cs cs' hc hcs ih =>
      have hn' := (List.nodup_append.mp hn).2.1
      cases i with
      | succ i => exact ih hn' i entry (none_of_later hentry ▸ nofun)
      | zero =>
          have hin := fun t ht => (hentry t ht).2
          have hskip := skips_eq hc hcs hn hin
          simp only [Machine.execCases, hskip]
          split
          · rename_i hs
            exact ih hn' 0 entry fun t ht => ⟨rfl, mem_of_skips (hskip.trans hs) hin t ht⟩
          · rename_i hs
            have hhead := hc.2.2 n entry (mem_of_not_skips (by rwa [hskip]))
            simp only [Machine.within] at hhead
            rw [hhead, ih hn' 0 none nofun]

theorem execCatch_eq {catches catches' : List (CatchHead × Region)}
    (h : List.Forall₂ (SameUnder o found targets g g₁) catches catches') (hn : (carriersOf (catches.map (·.2))).Nodup)
    (n i : Nat) (entry : Option Nat) (hentry : ∀ t ∈ entry, i = 0 ∧ t ∈ carriersOf (catches'.map (·.2))) :
    (g₁.machine o found targets).execCatch ((g₁.machine o found targets).rounds n) i entry catches' =
      (g.machine o found targets).execCatch ((g.machine o found targets).rounds n) i entry catches := by
  induction h generalizing i entry with
  | nil => rfl
  | @cons c c' cs cs' hc hcs ih =>
      have hn' := (List.nodup_append.mp hn).2.1
      cases i with
      | succ i => exact ih hn' i entry (none_of_later hentry ▸ nofun)
      | zero =>
          have hin := fun t ht => (hentry t ht).2
          have hskip := skips_eq hc hcs hn hin
          simp only [Machine.execCatch, hskip]
          split
          · rename_i hs
            exact ih hn' 0 entry fun t ht => ⟨rfl, mem_of_skips (hskip.trans hs) hin t ht⟩
          · rename_i hs
            exact hc.2.2 n entry (mem_of_not_skips (by rwa [hskip]))

end ReplacesEach

namespace Replaces

theorem switch {cases cases' : List (CaseHead × Region)} (header : Nat) (hn : (header :: carriersOfCases cases).Nodup)
    (h : ReplacesEach o found targets g cases g₁ cases') :
    Replaces o found targets g (.switch header cases) g₁ (.switch header cases') := by
  rw [carriersOfCases_eq] at hn
  obtain ⟨hheader, hn⟩ := List.nodup_cons.mp hn
  have hblock := h.frame header hheader
  have hvisit : (g₁.machine o found targets).visit header = (g.machine o found targets).visit header := by
    simp only [Graph.machine, hblock]
  have hselect : (g₁.machine o found targets).select header = (g.machine o found targets).select header := by
    funext heads
    simp only [Graph.machine, Graph.selectAt, hblock]
  refine ⟨h.size, h.starts, fun b hb => h.frame b ?_, ?_, fun n entry hentry => ?_⟩
  · rw [carriers, carriersOfCases_eq] at hb
    exact fun hb' => hb (List.mem_cons_of_mem _ hb')
  · rw [carriers, carriers, carriersOfCases_eq, carriersOfCases_eq]
    exact (ReplacesEach.sub h.each).cons_cons _
  · rw [carriers, carriersOfCases_eq] at hentry
    have hstart i := ReplacesEach.execCases_eq h.each hn n i none nofun
    simp only [Machine.within, Machine.exec, hvisit, hselect, ReplacesEach.heads_eq h.each, hstart]
    split
    · rfl
    · rename_i hbegins
      rw [ReplacesEach.execCases_eq h.each hn n 0 entry fun t ht => ⟨rfl, mem_of_not_begins hbegins hentry t ht⟩]

theorem guarded {body body' : Region} {catches catches' : List (CatchHead × Region)}
    (hn : (carriers body ++ carriersOfCatches catches).Nodup) (h : Replaces o found targets g body g₁ body')
    (h' : ReplacesEach o found targets g₁ catches g₂ catches') :
    Replaces o found targets g (.guarded body catches) g₂ (.guarded body' catches') := by
  rw [carriersOfCatches_eq] at hn
  have hdisj := List.disjoint_of_nodup_append hn
  have heach := ReplacesEach.each_before hdisj h h'
  have hhandler : (g₂.machine o found targets).handler = (g.machine o found targets).handler := rfl
  refine ⟨h'.size.trans h.size, fun i => (h'.starts i).trans (h.starts i), fun b hb => ?_, ?_, fun n entry hentry => ?_⟩
  · rw [carriers, carriersOfCatches_eq] at hb
    exact ReplacesEach.frame_both h h' hb
  · rw [carriers, carriers, carriersOfCatches_eq, carriersOfCatches_eq]
    exact h.sub.append (ReplacesEach.sub heach)
  · rw [carriers, carriersOfCatches_eq] at hentry
    have hskip : skips entry body' = skips entry body :=
      skips_eq h.sub (ReplacesEach.sub heach).subset hdisj hentry
    have hstart i := ReplacesEach.execCatch_eq heach (List.nodup_append.mp hn).2.1 n i none nofun
    simp only [Machine.within, Machine.exec, hskip, hhandler, ReplacesEach.heads_eq heach, hstart]
    split
    · rename_i hs
      exact ReplacesEach.execCatch_eq heach (List.nodup_append.mp hn).2.1 n 0 entry fun t ht =>
        ⟨rfl, mem_of_skips (hskip.trans hs) hentry t ht⟩
    · rename_i hs
      have hbody := ReplacesEach.same_after hdisj h h' n entry (mem_of_not_skips (by rwa [hskip]))
      simp only [Machine.within] at hbody
      rw [hbody]

end Replaces

end JavaLift
