import JavaLift.Proofs.Construction.Carrying

namespace JavaLift.Construction

variable {g : Graph} {entry : List Register} {b n m pos d e k : Nat} {p : Construction} {i : Insn} {r : Register}
  {x y : Def} {path : ArgPath}

/-- Where a folded instruction has read a register before: the arguments of a call have moved up by one. -/
def pathBefore (ps : List Construction) (b pos : Nat) (path : ArgPath) : ArgPath :=
  if ps.any fun p => p.block == b && p.init == pos then match path with
    | .arg j :: rest => .arg (j + 1) :: rest
    | path => path
  else path

theorem mem_reads_construct {method : MethodRef} {result : Option Register}
    (hcall : calledConstructor? i = some method) : (path, r) ∈ (construct result i).reads ↔
      ∃ j rest, path = .arg j :: rest ∧ (.arg (j + 1) :: rest, r) ∈ i.reads := by
  have hop : i.op = .invoke .direct method := by
    unfold calledConstructor? at hcall
    split at hcall
    · rename_i m hop
      obtain ⟨-, hm⟩ := Option.ite_none_right_eq_some.mp hcall
      rw [hop, Option.some.inj hm]
    · cases hcall
  have hslot (j : Nat) : Slot.ofIndex 0 j = .arg j := rfl
  have hreads : i.reads = Arg.readsFrom 0 0 i.args := by
    change Arg.readsFrom i.op.conditions 0 i.args = _
    rw [hop]
    rfl
  have hafter : (construct result i).reads = Arg.readsFrom 0 0 i.args.tail := by
    rw [construct, hcall]
    rfl
  rw [hafter, hreads, Arg.mem_readsFrom]
  simp only [Arg.mem_readsFrom, hslot, Nat.zero_add, List.cons.injEq, Slot.arg.injEq]
  constructor
  · rintro ⟨j, a, tail, ha, hr, rfl⟩
    exact ⟨j, tail, rfl, j + 1, a, tail, by rwa [List.getElem?_tail] at ha, hr, rfl, rfl⟩
  · rintro ⟨j, rest, rfl, _, a, _, ha, hr, rfl, rfl⟩
    exact ⟨j, a, rest, by rwa [List.getElem?_tail], hr, rfl⟩

/-- The same definition in the graph and in the folded graph. -/
def SameDefinition (g g' : Graph) (ps : List Construction) (entry : List Register) (k k' : Nat) : Prop :=
  ∃ d d', (Chain.build g entry).defs[k]? = some d ∧ (Chain.build g' entry).defs[k']? = some d' ∧ d'.reg = d.reg ∧
    d'.site = landed ps d.site ∧ (d.site = .entry → k' = k)

/-- Nothing has changed but the instances, the copies and the calls of the constructions, and every read that is left
has the definitions that it had. -/
structure KeepsFlow (g g' : Graph) (ps : List Construction) (entry : List Register) : Prop where
  size : g'.size = g.size
  start : g'.entry = g.entry
  tries : g'.tries = g.tries
  blocks : ∀ b, g'.block b = { g.block b with insns := folded ps b (g.block b).insns }
  reads : ∀ (b pos : Nat) (i : Insn) (path : ArgPath) (r : Register), (g.block b).insns[pos]? = some i →
    stays ps b pos = true → (path, r) ∈ (rewritten ps (g.block b).insns b pos i).reads →
      ∃ (id id' : Nat) (u u' : Use), (Chain.build g entry).useAt? b pos (pathBefore ps b pos path) = some id ∧
        (Chain.build g entry).uses[id]? = some u ∧ (Chain.build g' entry).useAt? b (place ps b pos) path = some id' ∧
          (Chain.build g' entry).uses[id']? = some u' ∧ u.reg = r.reg ∧ u'.reg = r.reg ∧
            (∀ k ∈ u.reaching, ∃ k', SameDefinition g g' ps entry k k') ∧
              ∀ k', k' ∈ u'.reaching ↔ ∃ k ∈ u.reaching, SameDefinition g g' ps entry k k'

/-- A read that is left was one before, and not that of a receiver. -/
theorem read_before (hi : (g.block b).insns[pos]? = some i)
    (hr : (path, r) ∈ (rewritten (plans g (Chain.build g entry)) (g.block b).insns b pos i).reads) :
    (pathBefore (plans g (Chain.build g entry)) b pos path, r) ∈ i.reads ∧
      ∀ p ∈ plans g (Chain.build g entry), p.block = b → p.init = pos →
        pathBefore (plans g (Chain.build g entry)) b pos path ≠ [.arg 0] := by
  by_cases hinit : ∃ p ∈ plans g (Chain.build g entry), p.block = b ∧ p.init = pos
  · obtain ⟨p, hp, rfl, rfl⟩ := hinit
    obtain ⟨i', method, hi', hcall⟩ := exists_call hp
    obtain rfl := Option.some.inj (hi.symm.trans hi')
    rw [rewritten_init hp, mem_reads_construct hcall] at hr
    obtain ⟨j, rest, rfl, hr⟩ := hr
    have hany : (plans g (Chain.build g entry)).any (fun q => q.block == p.block && q.init == p.init) = true :=
      List.any_eq_true.mpr ⟨p, hp, by simp⟩
    rw [pathBefore, if_pos hany]
    exact ⟨hr, fun _ _ _ _ h => by cases h⟩
  · have hnone : ¬ (plans g (Chain.build g entry)).any (fun q => q.block == b && q.init == pos) = true := by
      rw [List.any_eq_true]
      rintro ⟨p, hp, h⟩
      exact hinit ⟨p, hp, by simpa using h⟩
    rw [rewritten_of_not_init fun p hp hb hs => hinit ⟨p, hp, hb, hs⟩] at hr
    have hpath : pathBefore (plans g (Chain.build g entry)) b pos path = path := if_neg hnone
    exact ⟨hpath.symm ▸ hr, fun p hp hb hs => (hinit ⟨p, hp, hb, hs⟩).elim⟩

section

variable (hi : (g.block b).insns[pos]? = some i) (hstays : stays (plans g (Chain.build g entry)) b pos = true)
  (hr : (path, r) ∈ i.reads) (hreceiver : ∀ p ∈ plans g (Chain.build g entry), p.block = b → p.init = pos →
    path ≠ [.arg 0])
include hi hr hreceiver

theorem not_carried_copy (hp : p ∈ plans g (Chain.build g entry)) (hx : Receives g entry p.block p.init e m x)
    (hsingle : (Chain.build g entry).isSingleUse e = true) (hreg : x.reg = r.reg) : ¬ g.Carried x b pos := by
  intro hcarried
  obtain ⟨rfl, rfl, rfl⟩ := hx.only hsingle hi hr hreg hcarried
  exact hreceiver p hp rfl rfl rfl

theorem site_ne_copied (hy : (Chain.collectDefs g entry)[k]? = some y) (hreg : y.reg = r.reg)
    (hcarried : g.Carried y b pos) :
    ∀ p ∈ plans g (Chain.build g entry), ∀ m, p.copied = some m → y.site ≠ .insn p.block m := by
  intro p hp m hm hym
  obtain ⟨n, hn⟩ := exists_created hp hm
  obtain ⟨d, x, hx⟩ := exists_instance hp hn
  obtain ⟨-, -, e, w, hw, hsingle⟩ := hx.copy m hm
  obtain ⟨rfl, rfl⟩ := Chain.same_of_site hw.def_eq hy hw.site hym
  exact not_carried_copy hi hr hreceiver hp hw hsingle hreg hcarried

include hstays

/-- An instance does not reach it before its call. -/
theorem not_carried_instance (hp : p ∈ plans g (Chain.build g entry)) (hx : Instance g entry p n d x)
    (hb : p.block = b) (hpos : pos ≤ p.init) (hreg : x.reg = r.reg) : ¬ g.Carried x b pos := by
  intro hcarried
  subst hb
  rcases hx.unread_at hi hr hreg hcarried with ⟨rfl, rfl⟩ | hcopied | hlt
  · exact hreceiver p hp rfl rfl rfl
  · exact (stays_iff.mp hstays p hp rfl).2 hcopied
  · omega

theorem not_shadowed : ¬ Shadowed g entry r.reg b pos := by
  rintro (⟨hp, -, hx, hreg, hb, -, hpos, hcarried⟩ | ⟨hp, -, hx, hsingle, hreg, hcarried⟩)
  · exact not_carried_instance hi hstays hr hreceiver hp hx hb hpos hreg hcarried
  · exact not_carried_copy hi hr hreceiver hp hx hsingle hreg hcarried

end

section

variable (hplain : ∀ p ∈ plans g (Chain.build g entry), p.Plain g)
include hplain

/-- Every definition that is not made by a copy is there in the folded graph. -/
theorem exists_landed (hy : (Chain.collectDefs g entry)[k]? = some y)
    (hcopy : ∀ p ∈ plans g (Chain.build g entry), ∀ m, p.copied = some m → y.site ≠ .insn p.block m) :
    ∃ (k' : Nat) (y' : Def), (Chain.collectDefs (foldAll g (Chain.build g entry)).1 entry)[k']? = some y' ∧
      y'.reg = y.reg ∧ y'.site = landed (plans g (Chain.build g entry)) y.site ∧ (y.site = .entry → k' = k) := by
  cases hsite : y.site with
  | entry =>
      have hlt := (Chain.lt_length_iff_site hy).mpr hsite
      refine ⟨k, y, ?_, rfl, hsite, fun _ => rfl⟩
      rw [Chain.collectDefs_eq, List.getElem?_append_left (by simpa using hlt)] at hy ⊢
      exact hy
  | insn b pos =>
      obtain ⟨i, r, hi, hr, hyeq⟩ := exists_insn_of_site hy hsite
      have hmade {b' k' : Nat} {j : Insn} {r' : Register}
          (hj : ((foldAll g (Chain.build g entry)).1.block b').insns[k']? = some j) (hr' : j.result = some r') :
          ∃ k'' : Nat, (Chain.collectDefs (foldAll g (Chain.build g entry)).1 entry)[k'']? =
            some ⟨r'.reg, r'.wide, .insn b' k'⟩ :=
        List.mem_iff_getElem?.mp (Chain.mem_collectDefs.mpr (.inr ⟨b', k', j, hj, by simp [Chain.defOf, hr']⟩))
      by_cases hcreated : ∃ p ∈ plans g (Chain.build g entry), p.block = b ∧ p.created = some pos
      · obtain ⟨p, hp, rfl, hn⟩ := hcreated
        obtain ⟨d, x, hx⟩ := exists_instance hp hn
        obtain ⟨rfl, rfl⟩ := Chain.same_of_site hx.def_eq hy hx.site hsite
        obtain ⟨call, method, hcall, -⟩ := exists_call hp
        obtain ⟨r', hr', hreg, -⟩ := hx.result_rewritten hp (hplain p hp) hn hcall
        have hget := getElem?_folded hcall (stays_init hp)
        rw [← insns_foldAll hplain] at hget
        obtain ⟨k', hk'⟩ := hmade hget hr'
        exact ⟨k', _, hk', hreg, (landed_created hplain hp hn).symm, fun he => by cases he⟩
      · have hstays := stays_of_site hcopy hsite hcreated
        have hsame : rewritten (plans g (Chain.build g entry)) (g.block b).insns b pos i = i := by
          apply rewritten_of_not_init
          rintro p hp rfl rfl
          rw [(hplain p hp).call i hi] at hr
          cases hr
        have hget := getElem?_folded hi hstays
        rw [← insns_foldAll hplain, hsame] at hget
        obtain ⟨k', hk'⟩ := hmade hget hr
        exact ⟨k', _, hk', by rw [hyeq], (landed_of_stays hstays).symm, fun he => by cases he⟩

/-- Every definition of the folded graph was there before. -/
theorem exists_before {k' : Nat} {y' : Def}
    (hy' : (Chain.collectDefs (foldAll g (Chain.build g entry)).1 entry)[k']? = some y') :
    ∃ (k : Nat) (y : Def), (Chain.collectDefs g entry)[k]? = some y ∧ y'.reg = y.reg ∧
      y'.site = landed (plans g (Chain.build g entry)) y.site ∧ (y.site = .entry → k' = k) ∧
        ∀ p ∈ plans g (Chain.build g entry), ∀ m, p.copied = some m → y.site ≠ .insn p.block m := by
  cases hsite : y'.site with
  | entry =>
      have hlt := (Chain.lt_length_iff_site hy').mpr hsite
      refine ⟨k', y', ?_, rfl, by rw [hsite]; rfl, fun _ => rfl, fun _ _ _ _ h => by rw [hsite] at h; cases h⟩
      rw [Chain.collectDefs_eq, List.getElem?_append_left (by simpa using hlt)] at hy' ⊢
      exact hy'
  | insn b k =>
      obtain ⟨j, r', hj, hr', hyeq⟩ := exists_insn_of_site hy' hsite
      rw [insns_foldAll hplain] at hj
      obtain ⟨pos, i, hi, hstays, rfl, rfl⟩ := exists_of_folded hj
      by_cases hinit : ∃ p ∈ plans g (Chain.build g entry), p.block = b ∧ p.init = pos
      · obtain ⟨p, hp, rfl, rfl⟩ := hinit
        cases hn : p.created with
        | none =>
            obtain ⟨i', method, hi', hcall⟩ := exists_call hp
            obtain rfl := Option.some.inj (hi.symm.trans hi')
            rw [rewritten_init hp, hn, construct, hcall] at hr'
            cases hr'
        | some n =>
            obtain ⟨d, x, hx⟩ := exists_instance hp hn
            obtain ⟨r, hr, hreg, -⟩ := hx.result_rewritten hp (hplain p hp) hn hi
            obtain rfl := Option.some.inj (hr.symm.trans hr')
            refine ⟨d, x, hx.def_eq, by rw [hyeq, hreg], ?_, fun h => ?_, fun q hq m hm hxm => ?_⟩
            · rw [hx.site, landed_created hplain hp hn]
            · rw [hx.site] at h
              cases h
            · rw [hx.site] at hxm
              injection hxm with hblock hpos
              exact created_ne_copied hp hq hblock hn hm hpos
      · rw [rewritten_of_not_init fun p hp hb hs => hinit ⟨p, hp, hb, hs⟩] at hr'
        obtain ⟨k, hk⟩ := List.mem_iff_getElem?.mp (Chain.mem_collectDefs.mpr
          (.inr ⟨b, pos, i, hi, by rw [Chain.defOf, hr', Option.map_some]⟩) : _ ∈ Chain.collectDefs g entry)
        refine ⟨k, _, hk, by rw [hyeq], (landed_of_stays hstays).symm, (fun he => by cases he), fun p hp m hm h => ?_⟩
        injection h with hblock hpos
        exact (stays_iff.mp hstays p hp hblock.symm).2 (hpos ▸ hm)

/-- The definitions that are carried to a read that is left are the same. -/
theorem reaching_foldAll {k' : Nat} (hi : (g.block b).insns[pos]? = some i)
    (hstays : stays (plans g (Chain.build g entry)) b pos = true) (hr : (path, r) ∈ i.reads)
    (hreceiver : ∀ p ∈ plans g (Chain.build g entry), p.block = b → p.init = pos → path ≠ [.arg 0]) :
    (∃ y', (Chain.collectDefs (foldAll g (Chain.build g entry)).1 entry)[k']? = some y' ∧ y'.reg = r.reg ∧
      (foldAll g (Chain.build g entry)).1.Carried y' b (place (plans g (Chain.build g entry)) b pos)) ↔
      ∃ k y, (Chain.collectDefs g entry)[k]? = some y ∧ y.reg = r.reg ∧ g.Carried y b pos ∧
        SameDefinition g (foldAll g (Chain.build g entry)).1 (plans g (Chain.build g entry)) entry k k' := by
  have hpos := Nat.le_of_lt (List.getElem?_eq_some_iff.mp hi).1
  constructor
  · rintro ⟨y', hy', hreg', hcarried⟩
    obtain ⟨k, y, hy, hreg, hsite, hentry, hcopy⟩ := exists_before hplain hy'
    have hyr : y.reg = r.reg := hreg.symm.trans hreg'
    refine ⟨k, y, hy, hyr, ?_, y, y', ?_, ?_, hreg, hsite, hentry⟩
    · rcases comes_of_carried hplain hreg hy hcopy hsite hcarried pos hpos rfl with h | h
      · exact h
      · rw [hyr] at h
        exact (not_shadowed hi hstays hr hreceiver h).elim
    · rw [Chain.getElem?_defs, hy]
    · rw [Chain.getElem?_defs, hy']
  · rintro ⟨k, y, hy, hreg, hcarried, z, z', hz, hz', hregz, hsite, hentry⟩
    rw [Chain.getElem?_defs] at hz hz'
    obtain rfl := Option.some.inj (hy.symm.trans hz)
    refine ⟨z', hz', hregz.trans hreg, ?_⟩
    have hcopy := site_ne_copied hi hr hreceiver hy hreg hcarried
    rcases carried_foldAll hplain (List.mem_of_getElem? hy) hcopy hregz hsite hcarried with
      h | ⟨p, hp, n, hn, hyn, hb, -, hle⟩
    · exact h
    · obtain ⟨d, x, hx⟩ := exists_instance hp hn
      obtain ⟨rfl, rfl⟩ := Chain.same_of_site hx.def_eq hy hx.site hyn
      exact (not_carried_instance hi hstays hr hreceiver hp hx hb hle hreg hcarried).elim

end

/-- Folding constructions keeps the flow of data, however many there are in a block, if each of them is plain. -/
theorem foldAll_keepsFlow (g : Graph) (entry : List Register)
    (hplain : ∀ p ∈ plans g (Chain.build g entry), p.Plain g) :
    KeepsFlow g (foldAll g (Chain.build g entry)).1 (plans g (Chain.build g entry)) entry := by
  refine ⟨by simp [foldAll, Graph.size], rfl, rfl, block_foldAll hplain, ?_⟩
  intro b pos i path r hi hstays hr
  obtain ⟨hbefore, hreceiver⟩ := read_before hi hr
  have hi' := getElem?_folded hi hstays
  rw [← insns_foldAll hplain] at hi'
  obtain ⟨id, u, hid, hu, hreg, hreaching⟩ := Chain.exists_exact_use entry hi hbefore
  obtain ⟨id', u', hid', hu', hreg', hreaching'⟩ := Chain.exists_exact_use entry hi' hr
  refine ⟨id, id', u, u', hid, hu, hid', hu', hreg, hreg', fun k hk => ?_, fun k' => ?_⟩
  · obtain ⟨y, hy, hyr, hcarried⟩ := (hreaching k).mp hk
    obtain ⟨k', y', hy', hsame⟩ := exists_landed hplain hy (site_ne_copied hi hbefore hreceiver hy hyr hcarried)
    exact ⟨k', y, y', by rw [Chain.getElem?_defs, hy], by rw [Chain.getElem?_defs, hy'], hsame⟩
  · rw [hreaching', reaching_foldAll hplain hi hstays hbefore hreceiver]
    simp only [hreaching]
    constructor
    · rintro ⟨k, y, hy, hyr, hcarried, hsame⟩
      exact ⟨k, ⟨y, hy, hyr, hcarried⟩, hsame⟩
    · rintro ⟨k, ⟨y, hy, hyr, hcarried⟩, hsame⟩
      exact ⟨k, y, hy, hyr, hcarried, hsame⟩

/-- Makes an object and one more that is given the first, and returns it. -/
def twoObjects : Graph where
  blocks := #[⟨0, [.of (.newInstance (.object "a.A")) [] (some (.plain 0)) 0, .of .move [.ofReg 0] (some (.plain 1)) 1,
    .of (.invoke .direct ⟨"a.A", "<init>", [], .void⟩) [.ofReg 1] none 2,
    .of (.newInstance (.object "a.B")) [] (some (.plain 1)) 3,
    .of (.invoke .direct ⟨"a.B", "<init>", [.object "a.A"], .void⟩) [.ofReg 1, .ofReg 0] none 4,
    .of .ret [.ofReg 1] none 5], [], []⟩]
  entry := 0
  tries := []

theorem foldAll_keepsFlow_twoObjects :
    Graph.build (twoObjects.blocks.toList.flatMap Block.insns) [] 6 = .ok twoObjects ∧
      plans twoObjects (Chain.build twoObjects []) = [⟨0, some 0, some 1, 2⟩, ⟨0, some 3, none, 4⟩] ∧
        KeepsFlow twoObjects (foldAll twoObjects (Chain.build twoObjects [])).1
          [⟨0, some 0, some 1, 2⟩, ⟨0, some 3, none, 4⟩] [] := by
  have hplans : plans twoObjects (Chain.build twoObjects []) = [⟨0, some 0, some 1, 2⟩, ⟨0, some 3, none, 4⟩] := by
    decide +kernel
  refine ⟨by cbv, hplans, ?_⟩
  have hplain : ∀ p ∈ plans twoObjects (Chain.build twoObjects []), p.Plain twoObjects := by
    rw [hplans]
    intro p hp
    simp only [List.mem_cons, List.not_mem_nil, or_false] at hp
    rcases hp with rfl | rfl
    · refine ⟨?_, ?_, ?_, ?_, ?_, ?_⟩
      · rintro i ⟨⟩
        rfl
      · rintro n ⟨⟩
        decide
      · rintro n i r ⟨⟩ ⟨⟩ (⟨⟨⟩⟩ | ⟨⟨⟩⟩)
        · rfl
        · rfl
      · rintro n m ⟨⟩ ⟨⟩
        decide
      · rintro m i r ⟨⟩ ⟨⟩ ⟨⟩
        rfl
      · rintro n m i r pos j ⟨⟩ ⟨⟩ - - hm hinit
        dsimp only at hinit
        omega
    · refine ⟨?_, ?_, ?_, ?_, ?_, ?_⟩
      · rintro i ⟨⟩
        rfl
      · rintro n ⟨⟩
        decide
      · rintro n i r ⟨⟩ ⟨⟩ (⟨⟨⟩⟩ | ⟨⟨⟩⟩)
        · rfl
        · rfl
      · rintro n m - ⟨⟩
      · rintro m i r ⟨⟩
      · rintro n m i r pos j - ⟨⟩
  have hkeeps := foldAll_keepsFlow twoObjects [] hplain
  rwa [hplans] at hkeeps

/-- Makes an object and a copy of it, puts five in the place of the object, and calls the constructor on the copy. -/
def copyOutlives : Graph where
  blocks := #[⟨0, [.of (.newInstance (.object "a.A")) [] (some (.plain 0)) 0, .of .move [.ofReg 0] (some (.plain 1)) 1,
    .of .const [.lit 5 .int] (some (.plain 0)) 2, .of (.invoke .direct ⟨"a.A", "<init>", [], .void⟩) [.ofReg 1] none 3,
    .of .ret [.ofReg 0] none 4], [], []⟩]
  entry := 0
  tries := []

/-- The five is returned before, and the object afterwards. -/
theorem not_keepsFlow_copyOutlives :
    Graph.build (copyOutlives.blocks.toList.flatMap Block.insns) [] 5 = .ok copyOutlives ∧
      ¬ KeepsFlow copyOutlives (foldAll copyOutlives (Chain.build copyOutlives [])).1
        (plans copyOutlives (Chain.build copyOutlives [])) [] := by
  refine ⟨by cbv, fun hkeeps => ?_⟩
  obtain ⟨id, id', u, u', hid, hu, hid', hu', -, -, -, hreaching⟩ :=
    hkeeps.reads 0 4 (.of .ret [.ofReg 0] none 4) [.arg 0] (.plain 0) rfl (by decide +kernel) (by decide +kernel)
  have hbefore : (((Chain.build copyOutlives []).useAt? 0 4
      (pathBefore (plans copyOutlives (Chain.build copyOutlives [])) 0 4 [.arg 0])).bind fun id =>
        (Chain.build copyOutlives []).uses[id]?) = some ⟨0, 0, 4, [.arg 0], [2]⟩ := by
    decide +kernel
  have hafter : (((Chain.build (foldAll copyOutlives (Chain.build copyOutlives [])).1 []).useAt? 0
      (place (plans copyOutlives (Chain.build copyOutlives [])) 0 4) [.arg 0]).bind fun id =>
        (Chain.build (foldAll copyOutlives (Chain.build copyOutlives [])).1 []).uses[id]?) =
          some ⟨0, 0, 2, [.arg 0], [1]⟩ := by
    cbv
  rw [hid, Option.bind_some, hu, Option.some.injEq] at hbefore
  rw [hid', Option.bind_some, hu', Option.some.injEq] at hafter
  subst hbefore hafter
  obtain ⟨k, hk, d, d', hd, hd', -, hsite, -⟩ := (hreaching 1).mp (List.mem_singleton_self 1)
  obtain rfl := List.mem_singleton.mp hk
  have hdef : ((Chain.build copyOutlives []).defs[2]?).map Def.site = some (.insn 0 2) := by decide +kernel
  have hdef' : ((Chain.build (foldAll copyOutlives (Chain.build copyOutlives [])).1 []).defs[1]?).map Def.site =
      some (.insn 0 1) := by
    cbv
  rw [hd, Option.map_some, Option.some.injEq] at hdef
  rw [hd', Option.map_some, Option.some.injEq] at hdef'
  rw [hdef, hdef'] at hsite
  revert hsite
  decide +kernel

end JavaLift.Construction
