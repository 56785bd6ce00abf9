import JavaLift.Proofs.Inline.Planning

namespace JavaLift

/-- An instruction takes the place of a register that another one reads. -/
theorem Insn.wrapAt?_eq {i : Insn} {path : ArgPath} {r : Register} (h : (path, r) ∈ i.reads) (inner : Insn) :
    ∃ whole, i.wrapAt? path inner = some whole ∧ Arg.Replaced r inner.toArg path i.toArg whole.toArg := by
  obtain ⟨b, hb⟩ := Arg.replaced_of_reads h inner.toArg
  have hmod := hb.modifyAt?_eq (f := fun a => if a.reg?.isSome then some inner.toArg else none) rfl
  generalize hi : i.toArg = a at hb hmod
  cases hb with
  | here => cases hi
  | @under s path head args n c d slot found below =>
      refine ⟨⟨head, args.set n d⟩, ?_, hi ▸ .under slot found below⟩
      rw [wrapAt?, modifyAt?, hi, hmod]
      rfl

namespace InlinePlan

variable {insns : List Insn} {ws : List Wrap} {w : Wrap}

theorem Planned.forward (h : Planned insns ws) : ∀ v ∈ ws, v.source < v.use ∧ v.use < insns.length := by
  induction h with
  | nil => simp
  | cons before forward used read ordered free admitted ih =>
      intro v hv
      rcases List.mem_cons.mp hv with rfl | hv
      · exact ⟨forward, (List.getElem?_eq_some_iff.mp used).1⟩
      · exact ih v hv

theorem mem_inner {p : InlinePlan} {use i : Nat} : i ∈ p.inner use ↔ ∃ v ∈ p.wraps, v.use = use ∧ v.source = i := by
  simp [inner, and_assoc]

/-- A position is the source of one move at most. -/
theorem Planned.source_free (h : Planned insns (w :: ws)) : ∀ v ∈ ws, v.source ≠ w.source := by
  cases h with
  | cons _ _ _ _ _ _ admitted =>
      simp only [admits, Bool.and_eq_true, target?, Option.isNone_map] at admitted
      simpa using admitted.1.1.1

/-- What moves into an instruction has moved there when the instruction itself moves. -/
theorem Planned.use_free (h : Planned insns (w :: ws)) : ∀ v ∈ ws, v.source ≠ w.use := by
  cases h with
  | cons before _ _ _ ordered _ _ =>
      intro v hv he
      have := ordered v hv
      have := (before.forward v hv).1
      omega

/-- A move changes nothing for instructions other than its use. -/
theorem groupFrom_cons (h : Planned insns (w :: ws)) (n : Nat) {i : Nat} (hi : i ≠ w.use) :
    groupFrom ⟨insns.toArray, w :: ws⟩ n i = groupFrom ⟨insns.toArray, ws⟩ n i := by
  induction n generalizing i with
  | zero => rfl
  | succ n ih =>
      have hinner : inner ⟨insns.toArray, w :: ws⟩ i = inner ⟨insns.toArray, ws⟩ i := by simp [inner, Ne.symm hi]
      simp only [groupFrom, hinner]
      congr 1
      refine List.flatMap_congr fun j hj => ih ?_
      obtain ⟨v, hv, -, rfl⟩ := mem_inner.mp hj
      exact h.use_free v hv

/-- As many steps as the position has before it lead to all that moves into it. -/
theorem groupFrom_succ (h : Planned insns ws) {n i : Nat} (hi : i ≤ n) :
    groupFrom ⟨insns.toArray, ws⟩ (n + 1) i = groupFrom ⟨insns.toArray, ws⟩ n i := by
  have hlt : ∀ {i j}, j ∈ inner ⟨insns.toArray, ws⟩ i → j < i := by
    intro i j hj
    obtain ⟨v, hv, rfl, rfl⟩ := mem_inner.mp hj
    exact (h.forward v hv).1
  induction n generalizing i with
  | zero =>
      obtain rfl : i = 0 := by omega
      have hnone : inner ⟨insns.toArray, ws⟩ 0 = [] :=
        List.eq_nil_iff_forall_not_mem.mpr fun j hj => absurd (hlt hj) (Nat.not_lt_zero j)
      simp [groupFrom, hnone]
  | succ n ih =>
      rw [groupFrom, groupFrom]
      congr 1
      refine List.flatMap_congr fun j hj => ih ?_
      have := hlt hj
      omega

theorem group_cons_ne (h : Planned insns (w :: ws)) {i : Nat} (hi : i ≠ w.use) :
    group ⟨insns.toArray, w :: ws⟩ i = group ⟨insns.toArray, ws⟩ i := by
  rw [group, group, groupFrom_cons h _ hi]

/-- A move takes all that moves with its source along. -/
theorem group_cons_use (h : Planned insns (w :: ws)) :
    (group ⟨insns.toArray, w :: ws⟩ w.use).Perm
      (group ⟨insns.toArray, ws⟩ w.use ++ group ⟨insns.toArray, ws⟩ w.source) := by
  obtain ⟨hsource, huse⟩ := h.forward w List.mem_cons_self
  have hbefore : Planned insns ws := by cases h with | cons before => exact before
  obtain ⟨n, hn⟩ : ∃ n, insns.length = n + 1 := ⟨insns.length - 1, by omega⟩
  have hinner : inner ⟨insns.toArray, w :: ws⟩ w.use = w.source :: inner ⟨insns.toArray, ws⟩ w.use := by simp [inner]
  have hrest : (inner ⟨insns.toArray, ws⟩ w.use).flatMap (groupFrom ⟨insns.toArray, w :: ws⟩ n) =
      (inner ⟨insns.toArray, ws⟩ w.use).flatMap (groupFrom ⟨insns.toArray, ws⟩ n) := by
    refine List.flatMap_congr fun j hj => groupFrom_cons h n ?_
    obtain ⟨v, hv, -, rfl⟩ := mem_inner.mp hj
    exact h.use_free v hv
  have hmoved : groupFrom ⟨insns.toArray, w :: ws⟩ n w.source = groupFrom ⟨insns.toArray, ws⟩ (n + 1) w.source := by
    rw [groupFrom_cons h n (Nat.ne_of_lt hsource), groupFrom_succ hbefore (by omega)]
  have hfrom : (groupFrom ⟨insns.toArray, w :: ws⟩ (n + 1) w.use).Perm
      (groupFrom ⟨insns.toArray, ws⟩ (n + 1) w.use ++ groupFrom ⟨insns.toArray, ws⟩ (n + 1) w.source) := by
    rw [groupFrom, hinner, List.flatMap_cons, hrest, hmoved]
    exact (List.perm_append_comm.cons w.use : List.Perm (w.use :: _) _)
  simpa only [group, List.size_toArray, hn, List.filterMap_append] using hfrom.filterMap _

/-- What stands at a position after some moves: the instruction there with all that moved into it. The registers
that no move has taken are still read. -/
structure Grown (insns : List Insn) (ws : List Wrap) (i : Nat) (now : Insn) : Prop where
  nodes : now.heads.Perm ((group ⟨insns.toArray, ws⟩ i).flatMap Insn.heads)
  open_reads : ∀ orig, insns[i]? = some orig → ∀ path r, (path, r) ∈ orig.reads →
    (∀ v ∈ ws, v.use = i → v.path ≠ path) →
      (path, r) ∈ now.reads ∧ now.toArg.entered path = orig.toArg.entered path

structure Placed (insns : List Insn) (ws : List Wrap) (places : List (Option Insn)) : Prop where
  size : places.length = insns.length
  there : ∀ i, i < insns.length → (∀ v ∈ ws, v.source ≠ i) →
    ∃ now, places[i]? = some (some now) ∧ Grown insns ws i now

theorem Placed.start (insns : List Insn) : Placed insns [] (insns.map some) := by
  refine ⟨List.length_map .., fun i hi _ => ⟨insns[i], by simp [hi], ?_, ?_⟩⟩
  · obtain ⟨n, hn⟩ : ∃ n, insns.length = n + 1 := ⟨insns.length - 1, by omega⟩
    simp [group, hn, groupFrom, inner, List.getElem?_eq_getElem hi]
  · intro orig horig path r hr _
    obtain rfl : insns[i] = orig := by simpa [hi] using horig
    exact ⟨hr, rfl⟩

theorem Grown.skip (h : Planned insns (w :: ws)) {i : Nat} (hi : i ≠ w.use) {now : Insn} (hnow : Grown insns ws i now) :
    Grown insns (w :: ws) i now := by
  refine ⟨?_, fun orig horig path r hr hopen => ?_⟩
  · rw [group_cons_ne h hi]
    exact hnow.nodes
  · exact hnow.open_reads orig horig path r hr fun v hv => hopen v (List.mem_cons_of_mem _ hv)

theorem Grown.replaced (h : Planned insns (w :: ws)) {source target whole : Insn} {r : Register}
    (hsource : Grown insns ws w.source source) (htarget : Grown insns ws w.use target)
    (hr : Arg.Replaced r source.toArg w.path target.toArg whole.toArg) : Grown insns (w :: ws) w.use whole := by
  refine ⟨?_, fun orig horig path r' hread hopen => ?_⟩
  · refine hr.heads_perm.trans (((htarget.nodes.append hsource.nodes)).trans ?_)
    rw [← List.flatMap_append]
    exact ((group_cons_use h).flatMap_right _).symm
  · obtain ⟨hbefore, hentered⟩ := htarget.open_reads orig horig path r' hread
      fun v hv => hopen v (List.mem_cons_of_mem _ hv)
    obtain ⟨hafter, hentered'⟩ := hr.reads_frame hbefore (Ne.symm (hopen w List.mem_cons_self rfl))
    exact ⟨hafter, hentered'.trans hentered⟩

/-- A move is made: the source is taken out, and the use has it in the place of a register. -/
def Made (insns : List Insn) (ws : List Wrap) (w : Wrap) (places after : List (Option Insn)) : Prop :=
  ∃ source target whole r, Grown insns ws w.source source ∧ Grown insns ws w.use target ∧
    places[w.source]? = some (some source) ∧ (places.set w.source none)[w.use]? = some (some target) ∧
    Arg.Replaced r source.toArg w.path target.toArg whole.toArg ∧
    after = (places.set w.source none).set w.use (some whole)

theorem Placed.apply {places : List (Option Insn)} (h : Planned insns (w :: ws)) (hp : Placed insns ws places) :
    ∃ after, w.apply places = .ok after ∧ Made insns ws w places after ∧ Placed insns (w :: ws) after := by
  obtain ⟨hlt, hlen⟩ := h.forward w List.mem_cons_self
  obtain ⟨source, hsource, hgsource⟩ := hp.there w.source (by omega) h.source_free
  obtain ⟨target, htarget, hgtarget⟩ := hp.there w.use hlen h.use_free
  have htarget' : (places.set w.source none)[w.use]? = some (some target) := by
    rwa [List.getElem?_set_ne (Nat.ne_of_lt hlt)]
  obtain ⟨r, hr⟩ : ∃ r, (w.path, r) ∈ target.reads := by
    cases h with
    | cons _ _ used read _ free _ =>
        obtain ⟨⟨_, r⟩, hr, rfl⟩ := List.mem_map.mp read
        exact ⟨r, (hgtarget.open_reads _ used _ r hr free).1⟩
  obtain ⟨whole, hwrap, hreplaced⟩ := Insn.wrapAt?_eq hr source
  refine ⟨(places.set w.source none).set w.use (some whole), ?_,
    ⟨source, target, whole, r, hgsource, hgtarget, hsource, htarget', hreplaced, rfl⟩, ?_, ?_⟩
  · simp only [Wrap.apply, hsource, htarget', Option.join_some, hwrap]
  · simp [hp.size]
  · intro i hi hfree
    by_cases hu : i = w.use
    · subst hu
      refine ⟨whole, ?_, .replaced h hgsource hgtarget hreplaced⟩
      rw [List.getElem?_set_self (by simpa [hp.size] using hi)]
    · obtain ⟨now, hnow, hgrown⟩ := hp.there i hi fun v hv => hfree v (List.mem_cons_of_mem _ hv)
      refine ⟨now, ?_, hgrown.skip h hu⟩
      rwa [List.getElem?_set_ne (Ne.symm hu), List.getElem?_set_ne (hfree w List.mem_cons_self)]

/-- Making all planned moves succeeds, and what every move preserves holds afterwards. -/
theorem Planned.applyAll (h : Planned insns ws) {P : List Wrap → List (Option Insn) → Prop} (start : P [] (insns.map some))
    (step : ∀ w ws places after, Planned insns (w :: ws) → Made insns ws w places after → P ws places → P (w :: ws) after) :
    ∃ places, Wrap.applyAll ws.reverse insns = .ok (places.filterMap id) ∧ P ws places := by
  suffices ∃ places, ws.reverse.foldlM (fun places w => w.apply places) (insns.map some) = .ok places ∧
      Placed insns ws places ∧ P ws places by
    obtain ⟨places, hfold, -, hP⟩ := this
    refine ⟨places, ?_, hP⟩
    rw [Wrap.applyAll, hfold]
    rfl
  induction ws with
  | nil => exact ⟨_, rfl, .start insns, start⟩
  | cons w ws ih =>
      have hbefore : Planned insns ws := by cases h with | cons before => exact before
      obtain ⟨places, hfold, hplaced, hP⟩ := ih hbefore
      obtain ⟨after, happly, hmade, hafter⟩ := hplaced.apply h
      refine ⟨after, ?_, hafter, step w ws places after h hmade hP⟩
      rw [List.reverse_cons, List.foldlM_append, hfold]
      change [w].foldlM (fun places w => w.apply places) places = _
      rw [List.foldlM_cons, happly]
      rfl

/-- What is counted in all instructions stays, with what a move adds where the source is put. -/
theorem Made.flatMap_perm {places after : List (Option Insn)} (h : Made insns ws w places after) {β : Type}
    (f : Insn → List β) (xs : List β)
    (add : ∀ source target whole r, Grown insns ws w.source source → Grown insns ws w.use target →
      Arg.Replaced r source.toArg w.path target.toArg whole.toArg → (f whole).Perm (f target ++ (f source ++ xs))) :
    (after.flatMap fun i => i.elim [] f).Perm ((places.flatMap fun i => i.elim [] f) ++ xs) := by
  obtain ⟨source, target, whole, r, hgsource, hgtarget, hsource, htarget, hreplaced, rfl⟩ := h
  have hin := flatMap_set_perm (fun i : Option Insn => i.elim [] f) (f source ++ xs) (b := some whole) htarget
    (add source target whole r hgsource hgtarget hreplaced)
  obtain ⟨hlen, hget⟩ := List.getElem?_eq_some_iff.mp hsource
  have hout := flatMap_set_perm (fun i : Option Insn => i.elim [] f) (f source) (a := none) (b := some source)
    (List.getElem?_set_self hlen) (by simp)
  rw [List.set_set, ← hget, List.set_getElem_self] at hout
  rw [← List.append_assoc] at hin
  exact hin.trans (hout.symm.append_right xs)

end InlinePlan

namespace Inlining

theorem mapM_forall₂ {ε α β : Type} {f : α → Except ε β} {R : α → β → Prop} {l : List α}
    (h : ∀ a ∈ l, ∃ b, f a = .ok b ∧ R a b) : ∃ bs, l.mapM f = .ok bs ∧ List.Forall₂ R l bs := by
  induction l with
  | nil => exact ⟨[], rfl, .nil⟩
  | cons a l ih =>
      obtain ⟨b, hb, hab⟩ := h a List.mem_cons_self
      obtain ⟨bs, hbs, hall⟩ := ih fun c hc => h c (List.mem_cons_of_mem _ hc)
      refine ⟨b :: bs, ?_, .cons hab hall⟩
      rw [List.mapM_cons, hb, hbs]
      rfl

def Shrunk (c : Chain) (b : Nat) (block after : Block) : Prop :=
  ∃ moves out, planBlock c b block.insns = .ok moves ∧ InlinePlan.Planned block.insns moves.reverse ∧
    Wrap.applyAll moves block.insns = .ok out ∧ after = { block with insns := out }

theorem passBlock_shrunk (c : Chain) (b : Nat) (block : Block) :
    ∃ r, passBlock c b block = .ok r ∧ Shrunk c b block r.1 := by
  obtain ⟨moves, hplan, hplanned⟩ := planBlock_planned c b block.insns
  obtain ⟨places, happly, -⟩ := hplanned.applyAll (P := fun _ _ => True) trivial fun _ _ _ _ _ _ _ => trivial
  rw [List.reverse_reverse] at happly
  refine ⟨({ block with insns := _ }, moves.length), ?_, moves, _, hplan, hplanned, happly, rfl⟩
  rw [passBlock, hplan]
  change (Wrap.applyAll moves block.insns >>= _) = _
  rw [happly]
  rfl

theorem pass_shrunk (g : Graph) (entry : List Register) :
    ∃ g' moved, pass g entry = .ok (g', moved) ∧ g'.size = g.size ∧
      ∀ b, b < g.size → Shrunk (Chain.build g entry) b (g.block b) (g'.block b) := by
  have hblocks : ∀ x ∈ g.blocks.toList.zipIdx, ∃ r, passBlock (Chain.build g entry) x.2 x.1 = .ok r ∧
      Shrunk (Chain.build g entry) x.2 x.1 r.1 := fun x _ => passBlock_shrunk _ x.2 x.1
  obtain ⟨rs, hrs, hall⟩ := mapM_forall₂ hblocks
  have hlen : rs.length = g.size := by simpa [Graph.size] using hall.length_eq.symm
  refine ⟨{ g with blocks := (rs.map (·.1)).toArray }, rs.foldr (fun r n => r.2 + n) 0, ?_, by simp [Graph.size, hlen], ?_⟩
  · change (g.blocks.toList.zipIdx.mapM (fun x => passBlock (Chain.build g entry) x.2 x.1) >>= _) = _
    rw [hrs]
    rfl
  · intro b hb
    have hb' : b < g.blocks.toList.zipIdx.length := by simpa [Graph.size] using hb
    have hget := hall.get (i := b) hb' (by omega)
    have hsize : b < g.blocks.size := hb
    simpa [Graph.block, hsize, hlen, hb] using hget

end Inlining

end JavaLift
