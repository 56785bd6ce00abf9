import JavaLift.Fold.Construction
import JavaLift.Proofs.DefUse.Uses

namespace JavaLift

namespace Construction

variable {g : Graph} {entry : List Register} {b n m pos d : Nat} {p q : Construction} {i j : Insn} {r : Register}
  {path : ArgPath} {x y : Def}

theorem exists_insn_of_site (hx : (Chain.collectDefs g entry)[d]? = some x) (hsite : x.site = .insn b pos) :
    ∃ i r, (g.block b).insns[pos]? = some i ∧ i.result = some r ∧ x = ⟨r.reg, r.wide, .insn b pos⟩ := by
  rcases Chain.mem_collectDefs.mp (List.mem_of_getElem? hx) with ⟨r, -, rfl⟩ | ⟨b', pos', i, hi, hmade⟩
  · cases hsite
  · obtain ⟨r, hr, rfl⟩ := Option.map_eq_some_iff.mp hmade
    cases hsite
    exact ⟨i, r, hi, hr, rfl⟩

theorem lt_size_of_def (hx : (Chain.collectDefs g entry)[d]? = some x) : d < (Chain.build g entry).defs.size := by
  rw [← Chain.getElem?_defs] at hx
  exact (Array.getElem?_eq_some_iff.mp hx).1

/-- The first argument of an instruction is the value of definition `d`, which is made at `n`, and no other one. -/
structure Receives (g : Graph) (entry : List Register) (b pos d n : Nat) (x : Def) : Prop where
  def_eq : (Chain.collectDefs g entry)[d]? = some x
  site : x.site = .insn b n
  carried : g.Carried x b pos
  use : ∃ (id : Nat) (u : Use), (Chain.build g entry).uses[id]? = some u ∧ u.block = b ∧ u.pos = pos ∧
    u.path = [.arg 0] ∧ u.reaching = [d]

theorem receives_of_sourceOf? (h : sourceOf? (Chain.build g entry) b pos = some (d, n)) :
    ∃ x, Receives g entry b pos d n x := by
  simp only [sourceOf?, Option.bind_eq_bind, Option.bind_eq_some_iff] at h
  obtain ⟨id, huse, h⟩ := h
  obtain ⟨u, hu, hblock, hpos, hpath⟩ := Chain.useAt?_build huse
  split at h
  · rename_i d' hreaching
    obtain ⟨x, hx, h⟩ := Option.bind_eq_some_iff.mp h
    have hone : u.reaching = [d'] := by simpa [Chain.reaching, hu] using hreaching
    split at h
    · rename_i b' q hsite
      obtain ⟨rfl, ⟨⟩⟩ := Option.ite_none_right_eq_some.mp h
      rw [Chain.getElem?_defs] at hx
      have hexact := (Chain.exact_of_mem (Array.mem_of_getElem? hu)).reaching d
      rw [hone, List.mem_singleton, eq_self_iff_true, true_iff] at hexact
      obtain ⟨x', hx', -, hcarried⟩ := hexact
      obtain rfl := Option.some.inj (hx.symm.trans hx')
      exact ⟨x, hx, hsite, by rwa [hblock, hpos] at hcarried, id, u, hu, hblock, hpos, hpath, hone⟩
    · cases h
  · cases h

/-- What is known of the new instance of a construction: the copy, if there is one, is read by the call only, and up to
the call the instance is read by the copy and the call only. -/
structure Instance (g : Graph) (entry : List Register) (p : Construction) (n d : Nat) (x : Def) : Prop where
  def_eq : (Chain.collectDefs g entry)[d]? = some x
  site : x.site = .insn p.block n
  isNew : ∀ i, (g.block p.block).insns[n]? = some i → isNew i = true
  direct : p.copied = none → Receives g entry p.block p.init d n x
  copy : ∀ m, p.copied = some m → Receives g entry p.block m d n x ∧
    (∀ i, (g.block p.block).insns[m]? = some i → i.op = .move) ∧
    ∃ e y, Receives g entry p.block p.init e m y ∧ (Chain.build g entry).isSingleUse e = true
  unread : isUnread (Chain.build g entry) d p.block p.init p.copied = true

theorem instance_of_origin? {copied : Option Nat} {init : Nat}
    (h : origin? (g.block b).insns (Chain.build g entry) b init = some (d, n, copied))
    (hunread : isUnread (Chain.build g entry) d b init copied = true) :
    ∃ x, Instance g entry ⟨b, some n, copied, init⟩ n d x := by
  simp only [origin?, Option.bind_eq_bind, Option.bind_eq_some_iff, Prod.exists] at h
  obtain ⟨e, pos, hsource, i, hi, h⟩ := h
  obtain ⟨y, hy⟩ := receives_of_sourceOf? hsource
  split at h
  · rename_i hnew
    cases h
    exact ⟨y, hy.def_eq, hy.site, fun j hj => by rwa [Option.some.inj (hj.symm.trans hi)], fun _ => hy, nofun, hunread⟩
  · split at h
    · rename_i hmove
      simp only [Bool.and_eq_true, decide_eq_true_eq, Option.bind_eq_some_iff, Prod.exists] at hmove h
      obtain ⟨d', n', hsource', j, hj, h⟩ := h
      obtain ⟨x, hx⟩ := receives_of_sourceOf? hsource'
      split at h
      · rename_i hnew
        cases h
        refine ⟨x, hx.def_eq, hx.site, fun k hk => by rwa [Option.some.inj (hk.symm.trans hj)], nofun, ?_, hunread⟩
        rintro m ⟨⟩
        exact ⟨hx, fun k hk => by rw [Option.some.inj (hk.symm.trans hi)]; exact hmove.1, e, y, hy, hmove.2⟩
      · cases h
    · cases h

theorem eq_of_plan? {insns : List Insn} {c : Chain} {init : Nat} (h : plan? insns c b i init = some p) :
    p.block = b ∧ p.init = init := by
  unfold plan? at h
  split at h
  · cases h
  · split at h
    · cases h
      exact ⟨rfl, rfl⟩
    · simp only [Option.bind_eq_bind, Option.bind_eq_some_iff, Prod.exists] at h
      obtain ⟨_, _, _, -, h⟩ := h
      obtain ⟨-, h⟩ := Option.ite_none_right_eq_some.mp h
      cases h
      exact ⟨rfl, rfl⟩

theorem mem_plans {c : Chain} : p ∈ plans g c ↔ ∃ i, (g.block p.block).insns[p.init]? = some i ∧
    plan? (g.block p.block).insns c p.block i p.init = some p := by
  simp only [plans, plansOf, List.mem_flatMap, Prod.exists, List.mem_zipIdx_iff_getElem?, List.mem_filterMap,
    Array.getElem?_toList]
  constructor
  · rintro ⟨block, b, hb, i, pos, hi, hplan⟩
    obtain ⟨rfl, rfl⟩ := eq_of_plan? hplan
    have hblock : g.block p.block = block := by simp [Graph.block, hb]
    exact ⟨i, hblock ▸ hi, hblock ▸ hplan⟩
  · rintro ⟨i, hi, hplan⟩
    have hlt : p.block < g.blocks.size := Chain.lt_size_of_insn hi
    exact ⟨g.block p.block, p.block, by simp [Graph.block, hlt], i, p.init, hi, hplan⟩

theorem eq_of_init {c : Chain} (hp : p ∈ plans g c) (hq : q ∈ plans g c) (hblock : p.block = q.block)
    (hinit : p.init = q.init) : p = q := by
  obtain ⟨i, hi, hplan⟩ := mem_plans.mp hp
  obtain ⟨j, hj, hplan'⟩ := mem_plans.mp hq
  rw [← hblock, ← hinit] at hj hplan'
  obtain rfl := Option.some.inj (hi.symm.trans hj)
  exact Option.some.inj (hplan.symm.trans hplan')

theorem exists_call {c : Chain} (hp : p ∈ plans g c) :
    ∃ i m, (g.block p.block).insns[p.init]? = some i ∧ calledConstructor? i = some m := by
  obtain ⟨i, hi, hplan⟩ := mem_plans.mp hp
  unfold plan? at hplan
  split at hplan
  · cases hplan
  · rename_i hcall
    obtain ⟨m, hm⟩ := Option.ne_none_iff_exists'.mp (by simpa using hcall)
    exact ⟨i, m, hi, hm⟩

theorem init_lt {c : Chain} (hp : p ∈ plans g c) : p.init < (g.block p.block).insns.length := by
  obtain ⟨i, m, hi, -⟩ := exists_call hp
  exact (List.getElem?_eq_some_iff.mp hi).1

theorem instance_of_plan? {init : Nat} (h : plan? (g.block b).insns (Chain.build g entry) b i init = some p)
    (hn : p.created = some n) : ∃ d x, Instance g entry p n d x := by
  unfold plan? at h
  split at h
  · cases h
  · split at h
    · cases h
      cases hn
    · simp only [Option.bind_eq_bind, Option.bind_eq_some_iff, Prod.exists] at h
      obtain ⟨d, created, copied, horigin, h⟩ := h
      obtain ⟨hunread, h⟩ := Option.ite_none_right_eq_some.mp h
      cases h
      cases hn
      exact ⟨d, instance_of_origin? horigin hunread⟩

theorem exists_instance (hp : p ∈ plans g (Chain.build g entry)) (hn : p.created = some n) :
    ∃ d x, Instance g entry p n d x := by
  obtain ⟨i, -, hplan⟩ := mem_plans.mp hp
  exact instance_of_plan? hplan hn

theorem makesReceiver_of_plan? {insns : List Insn} {c : Chain} {init : Nat} (h : plan? insns c b i init = some p)
    (hn : p.created = none) : p.copied = none ∧ makesReceiver i = true := by
  unfold plan? at h
  split at h
  · cases h
  · split at h
    · rename_i hmakes
      cases h
      exact ⟨rfl, hmakes⟩
    · simp only [Option.bind_eq_bind, Option.bind_eq_some_iff, Prod.exists] at h
      obtain ⟨d, created, copied, -, h⟩ := h
      obtain ⟨-, h⟩ := Option.ite_none_right_eq_some.mp h
      cases h
      cases hn

/-- Up to the call the new instance is read by the copy and the call only. -/
theorem Instance.unread_use (h : Instance g entry p n d x) {id : Nat} {u : Use}
    (hu : (Chain.build g entry).uses[id]? = some u) (hd : d ∈ u.reaching) (hb : u.block = p.block) :
    u.pos = p.init ∧ u.path = [.arg 0] ∨ p.copied = some u.pos ∨ p.init < u.pos := by
  have hsize : d < (Chain.build g entry).defs.size := lt_size_of_def h.def_eq
  have hlist : id ∈ (Chain.build g entry).usesOfDef d := Chain.mem_listUses (by rwa [Array.getElem?_toList]) hd hsize
  have hall := List.all_eq_true.mp h.unread id hlist
  simp only [hu, Option.all_some, hb, bne_self_eq_false, Bool.false_or, Bool.or_eq_true, Bool.and_eq_true,
    beq_iff_eq, decide_eq_true_eq] at hall
  tauto

theorem exists_use_of_carried (hx : (Chain.collectDefs g entry)[d]? = some x) (hi : (g.block b).insns[pos]? = some i)
    (hr : (path, r) ∈ i.reads) (hreg : x.reg = r.reg) (hcarried : g.Carried x b pos) :
    ∃ (id : Nat) (u : Use), (Chain.build g entry).uses[id]? = some u ∧ u.block = b ∧ u.pos = pos ∧ u.path = path ∧
      d ∈ u.reaching := by
  obtain ⟨u, hu, rfl, rfl, rfl⟩ := Chain.exists_use entry hi hr
  obtain ⟨id, hid⟩ := Array.mem_iff_getElem?.mp hu
  have hexact := Chain.exact_of_mem hu
  exact ⟨id, u, hid, rfl, rfl, rfl, (hexact.reaching d).mpr ⟨x, hx, hreg.trans (hexact.reg_eq hi hr).symm, hcarried⟩⟩

theorem Instance.unread_at (h : Instance g entry p n d x) (hi : (g.block p.block).insns[pos]? = some i)
    (hr : (path, r) ∈ i.reads) (hreg : x.reg = r.reg) (hcarried : g.Carried x p.block pos) :
    pos = p.init ∧ path = [.arg 0] ∨ p.copied = some pos ∨ p.init < pos := by
  obtain ⟨id, u, hu, hblock, rfl, rfl, hd⟩ := exists_use_of_carried h.def_eq hi hr hreg hcarried
  exact h.unread_use hu hd hblock

/-- A value that is received by one call and read once is read by nothing else. -/
theorem Receives.only (h : Receives g entry b pos d n x) (hsingle : (Chain.build g entry).isSingleUse d = true)
    {b' pos' : Nat} (hi : (g.block b').insns[pos']? = some i) (hr : (path, r) ∈ i.reads) (hreg : x.reg = r.reg)
    (hcarried : g.Carried x b' pos') : b' = b ∧ pos' = pos ∧ path = [.arg 0] := by
  obtain ⟨id, u, hu, rfl, rfl, rfl, hd⟩ := exists_use_of_carried h.def_eq hi hr hreg hcarried
  obtain ⟨id', u', hu', rfl, rfl, hpath, hone⟩ := h.use
  have hsize : d < (Chain.build g entry).defs.size := lt_size_of_def h.def_eq
  obtain rfl := Chain.eq_of_isSingleUse hsingle hsize hu hu' hd (hone ▸ List.mem_singleton_self d)
  obtain rfl := Option.some.inj (hu.symm.trans hu')
  exact ⟨rfl, rfl, hpath⟩

/-- A construction whose instructions stand in order: the instance is made and then copied before the call, nothing
writes its register between the copy and the call, no register is wide, and the call has no value of its own. -/
structure Plain (g : Graph) (p : Construction) : Prop where
  call : ∀ i, (g.block p.block).insns[p.init]? = some i → i.result = none
  ordered : ∀ n, p.created = some n → n < p.init
  narrow : ∀ n i r, p.created = some n → (g.block p.block).insns[n]? = some i →
    i.result = some r ∨ resultOf i = some r → r.wide = false
  copy : ∀ n m, p.created = some n → p.copied = some m → n < m ∧ m < p.init
  narrowCopy : ∀ m i r, p.copied = some m → (g.block p.block).insns[m]? = some i → i.result = some r → r.wide = false
  untouched : ∀ n m i r pos j, p.created = some n → p.copied = some m → (g.block p.block).insns[n]? = some i →
    i.result = some r → m < pos → pos < p.init → (g.block p.block).insns[pos]? = some j → ¬ j.overwrites r.reg

theorem not_move_of_call {m : MethodRef} (h : calledConstructor? i = some m) : i.op ≠ .move := by
  intro hmove
  rw [calledConstructor?, hmove] at h
  cases h

theorem not_isNew_of_call {m : MethodRef} (h : calledConstructor? i = some m) : isNew i = false := by
  unfold calledConstructor? at h
  split at h
  · rename_i hop
    rw [isNew, hop]
  · cases h

theorem not_isNew_of_move (h : i.op = .move) : isNew i = false := by rw [isNew, h]

theorem exists_created {c : Chain} (hp : p ∈ plans g c) (hm : p.copied = some m) : ∃ n, p.created = some n := by
  obtain ⟨i, -, hplan⟩ := mem_plans.mp hp
  cases hn : p.created with
  | none =>
      rw [(makesReceiver_of_plan? hplan hn).1] at hm
      cases hm
  | some n => exact ⟨n, rfl⟩

section

variable (hp : p ∈ plans g (Chain.build g entry)) (hq : q ∈ plans g (Chain.build g entry))
include hp hq

theorem eq_of_copied (hblock : p.block = q.block) (hpm : p.copied = some m) (hqm : q.copied = some m) : p = q := by
  obtain ⟨n, hn⟩ := exists_created hp hpm
  obtain ⟨n', hn'⟩ := exists_created hq hqm
  obtain ⟨d, x, hx⟩ := exists_instance hp hn
  obtain ⟨d', x', hx'⟩ := exists_instance hq hn'
  obtain ⟨-, -, e, y, hy, hsingle⟩ := hx.copy m hpm
  obtain ⟨-, -, e', y', hy', -⟩ := hx'.copy m hqm
  obtain rfl := Chain.eq_of_site hy.def_eq hy'.def_eq hy.site (hblock ▸ hy'.site)
  obtain ⟨id, u, hu, hub, hupos, -, hone⟩ := hy.use
  obtain ⟨id', u', hu', -, hupos', -, hone'⟩ := hy'.use
  obtain rfl := Chain.eq_of_isSingleUse hsingle (lt_size_of_def hy.def_eq) hu hu' (hone ▸ List.mem_singleton_self e)
    (hone' ▸ List.mem_singleton_self e)
  obtain rfl := Option.some.inj (hu.symm.trans hu')
  exact eq_of_init hp hq hblock (hupos.symm.trans hupos')

/-- An instance that the first of two calls receives is read before the second one. -/
theorem not_created_of_lt (hplain : p.Plain g) (hblock : p.block = q.block) (hpn : p.created = some n)
    (hqn : q.created = some n) (hlt : p.init < q.init) : False := by
  obtain ⟨d, x, hx⟩ := exists_instance hp hpn
  obtain ⟨d', x', hx'⟩ := exists_instance hq hqn
  obtain rfl := Chain.eq_of_site hx.def_eq hx'.def_eq hx.site (hblock ▸ hx'.site)
  cases hcopied : p.copied with
  | none =>
      obtain ⟨id, u, hu, hub, hupos, -, hone⟩ := (hx.direct hcopied).use
      rcases hx'.unread_use hu (hone ▸ List.mem_singleton_self d) (hub.trans hblock) with ⟨h, -⟩ | h | h
      · omega
      · obtain ⟨i, m, hi, hcall⟩ := exists_call hp
        obtain ⟨-, hmove, -⟩ := hx'.copy _ h
        exact not_move_of_call hcall (hmove i (by rw [hupos, ← hblock, hi]))
      · omega
  | some m =>
      obtain ⟨hread, -⟩ := hx.copy m hcopied
      obtain ⟨id, u, hu, hub, hupos, -, hone⟩ := hread.use
      have hm := (hplain.copy n m hpn hcopied).2
      rcases hx'.unread_use hu (hone ▸ List.mem_singleton_self d) (hub.trans hblock) with ⟨h, -⟩ | h | h
      · omega
      · obtain rfl := eq_of_copied hp hq hblock hcopied (hupos ▸ h)
        omega
      · omega

theorem eq_of_created (hplain : p.Plain g) (hplain' : q.Plain g) (hblock : p.block = q.block)
    (hpn : p.created = some n) (hqn : q.created = some n) : p = q := by
  rcases lt_trichotomy p.init q.init with hlt | heq | hlt
  · exact (not_created_of_lt hp hq hplain hblock hpn hqn hlt).elim
  · exact eq_of_init hp hq hblock heq
  · exact (not_created_of_lt hq hp hplain' hblock.symm hqn hpn hlt).elim

/-- What is an instance of one construction is no copy of another. -/
theorem created_ne_copied (hblock : p.block = q.block) (hpn : p.created = some n) (hqm : q.copied = some m) :
    n ≠ m := by
  rintro rfl
  obtain ⟨d, x, hx⟩ := exists_instance hp hpn
  obtain ⟨n', hn'⟩ := exists_created hq hqm
  obtain ⟨d', x', hx'⟩ := exists_instance hq hn'
  obtain ⟨i, r, hi, -⟩ := exists_insn_of_site hx.def_eq hx.site
  have hnew := hx.isNew i hi
  rw [not_isNew_of_move ((hx'.copy n hqm).2.1 i (hblock ▸ hi))] at hnew
  cases hnew

/-- The call of one construction is neither instance nor copy of another. -/
theorem init_not_mem_spare (hblock : p.block = q.block) : p.init ∉ spare q := by
  intro hmem
  obtain ⟨i, m, hi, hcall⟩ := exists_call hp
  rcases List.mem_append.mp hmem with h | h
  · obtain ⟨d, x, hx⟩ := exists_instance hq (Option.mem_toList.mp h)
    have hnew := hx.isNew i (hblock ▸ hi)
    rw [not_isNew_of_call hcall] at hnew
    cases hnew
  · obtain ⟨n, hn⟩ := exists_created hq (Option.mem_toList.mp h)
    obtain ⟨d, x, hx⟩ := exists_instance hq hn
    exact not_move_of_call hcall ((hx.copy _ (Option.mem_toList.mp h)).2.1 i (hblock ▸ hi))

end

end Construction

section

variable {α : Type} {l : List α} {keep : Nat → Bool} {pos : Nat} {a : α}

theorem find?_eq_of_unique {p : α → Bool} (ha : a ∈ l) (hp : p a = true) (hunique : ∀ b ∈ l, p b = true → b = a) :
    l.find? p = some a := by
  cases hfind : l.find? p with
  | none => exact absurd hp (List.find?_eq_none.mp hfind a ha)
  | some b => rw [hunique b (List.mem_of_find?_eq_some hfind) (List.find?_some hfind)]

theorem map_snd_zipIdx (l : List α) : l.zipIdx.map Prod.snd = List.range l.length := by
  rw [List.zipIdx_map_snd, List.range_eq_range']

/-- How many of the first positions are kept. -/
def keptBefore (keep : Nat → Bool) (pos : Nat) : Nat := (List.range pos).countP keep

@[simp] theorem keptBefore_zero (keep : Nat → Bool) : keptBefore keep 0 = 0 := rfl

theorem keptBefore_succ (keep : Nat → Bool) (pos : Nat) :
    keptBefore keep (pos + 1) = keptBefore keep pos + if keep pos then 1 else 0 := by
  rw [keptBefore, List.range_succ, List.countP_append, List.countP_singleton]
  rfl

theorem keptBefore_mono {pos' : Nat} (h : pos ≤ pos') : keptBefore keep pos ≤ keptBefore keep pos' := by
  induction h with
  | refl => exact Nat.le_refl _
  | step _ ih =>
      rw [keptBefore_succ]
      omega

theorem length_filter_zipIdx (keep : Nat → Bool) (l : List α) :
    (l.zipIdx.filter fun x => keep x.2).length = keptBefore keep l.length := by
  rw [keptBefore, ← map_snd_zipIdx, List.countP_map, List.countP_eq_length_filter]
  rfl

theorem getElem?_filter_zipIdx (ha : l[pos]? = some a) (hkeep : keep pos = true) :
    (l.zipIdx.filter fun x => keep x.2)[keptBefore keep pos]? = some (a, pos) := by
  obtain ⟨hpos, rfl⟩ := List.getElem?_eq_some_iff.mp ha
  have hsplit : l = l.take pos ++ l[pos] :: l.drop (pos + 1) := by simp
  have hlength : (l.take pos).length = pos := by simp; omega
  have hbefore := length_filter_zipIdx keep (l.take pos)
  rw [hlength] at hbefore
  conv_lhs => rw [hsplit]
  rw [List.zipIdx_append, List.filter_append, List.getElem?_append_right (by omega), hbefore, Nat.sub_self,
    List.zipIdx_cons, hlength, Nat.zero_add, List.filter_cons, if_pos hkeep]
  rfl

/-- Every element that is left was at a position that is kept. -/
theorem exists_of_lt_keptBefore {n : Nat} (h : n < keptBefore keep pos) :
    ∃ q < pos, keep q = true ∧ keptBefore keep q = n := by
  induction pos with
  | zero => exact (Nat.not_lt_zero n h).elim
  | succ pos ih =>
      by_cases hlt : n < keptBefore keep pos
      · obtain ⟨q, hq, hkeep, hn⟩ := ih hlt
        exact ⟨q, Nat.lt_succ_of_lt hq, hkeep, hn⟩
      · rw [keptBefore_succ] at h
        by_cases hkeep : keep pos = true
        · rw [if_pos hkeep] at h
          exact ⟨pos, Nat.lt_succ_self pos, hkeep, by omega⟩
        · rw [if_neg hkeep] at h
          omega

/-- Taking out positions from the end on keeps all others. -/
theorem foldl_eraseIdx {positions : List Nat} (hsorted : positions.Pairwise (· > ·)) (l : List α) :
    positions.foldl (fun l pos => l.eraseIdx pos) l =
      (l.zipIdx.filter fun x => !positions.contains x.2).map Prod.fst := by
  induction positions generalizing l with
  | nil => simp
  | cons a positions ih =>
      rw [List.pairwise_cons] at hsorted
      rw [List.foldl_cons, ih hsorted.2, List.eraseIdx_eq_take_drop_succ, List.zipIdx_append, List.filter_append]
      conv_rhs => rw [← List.take_append_drop a l, List.zipIdx_append, List.filter_append]
      rw [List.map_append, List.map_append]
      congr 1
      · congr 1
        apply List.filter_congr
        rintro ⟨x, i⟩ hx
        obtain ⟨-, hi, -⟩ := List.mem_zipIdx hx
        have hne : i ≠ a := by
          simp only [Nat.zero_add, List.length_take] at hi
          omega
        simp [hne]
      · have hall (gone : List Nat) (start : Nat) (hgone : ∀ i ∈ gone, i < start) :
            (((l.drop (a + 1)).zipIdx start).filter fun x => !gone.contains x.2).map Prod.fst = l.drop (a + 1) := by
          rw [List.filter_eq_self.mpr, List.zipIdx_map_fst]
          rintro ⟨x, i⟩ hx
          obtain ⟨hi, -⟩ := List.mem_zipIdx hx
          have hnot : i ∉ gone := fun hmem => absurd (hgone i hmem) (Nat.not_lt.mpr hi)
          simpa using hnot
        by_cases ha : a < l.length
        · have hlength : 0 + (l.take a).length = a := by simp; omega
          rw [List.drop_eq_getElem_cons ha, List.zipIdx_cons, List.filter_cons, hlength, hall _ _ hsorted.1]
          simp only [List.contains_cons, beq_self_eq_true, Bool.true_or, Bool.not_true, Bool.false_eq_true, if_false]
          refine (hall (a :: positions) (a + 1) ?_).symm
          exact List.forall_mem_cons.mpr ⟨Nat.lt_succ_self a, fun i hi => Nat.lt_succ_of_lt (hsorted.1 i hi)⟩
        · rw [List.drop_eq_nil_of_le (by omega), List.drop_eq_nil_of_le (by omega)]
          rfl

end

namespace Construction

/-- The instruction at a position stays: it is neither an instance nor a copy of a construction. -/
def stays (ps : List Construction) (b pos : Nat) : Bool := !((ps.filter (·.block == b)).flatMap spare).contains pos

/-- The position of an instruction that stays, once the others have been taken out. -/
def place (ps : List Construction) (b pos : Nat) : Nat := keptBefore (stays ps b) pos

/-- What an instruction becomes: the call of a construction makes the object in the register of the instance. -/
def rewritten (ps : List Construction) (insns : List Insn) (b pos : Nat) (i : Insn) : Insn :=
  match ps.find? fun p => p.block == b && p.init == pos with
  | some p => construct (p.created.bind fun n => (insns[n]?).bind resultOf) i
  | none => i

variable {ps : List Construction} {insns : List Insn} {b pos n : Nat} {p q : Construction} {g : Graph}
  {entry : List Register} {i : Insn}

theorem getElem?_apply (insns : List Insn) (p : Construction) (pos : Nat) : (apply insns p)[pos]? =
    if p.init = pos then insns[pos]?.map (construct (p.created.bind fun n => (insns[n]?).bind resultOf))
    else insns[pos]? := by
  rw [apply, List.getElem?_modify]
  split
  · rfl
  · simp

/-- Folding the calls one after the other rewrites each of them, as long as no call is an instance of another. -/
theorem getElem?_foldl_apply (hcalls : ps.Pairwise fun p q => p.init ≠ q.init)
    (hapart : ∀ p ∈ ps, ∀ q ∈ ps, q.created ≠ some p.init) :
    (ps.foldl apply insns)[pos]? = insns[pos]?.map fun i => match ps.find? fun p => p.init == pos with
      | some p => construct (p.created.bind fun n => (insns[n]?).bind resultOf) i
      | none => i := by
  induction ps generalizing insns with
  | nil => simp
  | cons p ps ih =>
      rw [List.pairwise_cons] at hcalls
      have hsame {q : Construction} (hq : q ∈ p :: ps) : (q.created.bind fun n => ((apply insns p)[n]?).bind resultOf) =
          q.created.bind fun n => (insns[n]?).bind resultOf := by
        cases hn : q.created with
        | none => rfl
        | some n =>
            have hne : p.init ≠ n := fun h => hapart p List.mem_cons_self q hq (h ▸ hn)
            rw [Option.bind_some, Option.bind_some, getElem?_apply, if_neg hne]
      rw [List.foldl_cons, ih hcalls.2 fun p hp q hq =>
        hapart p (List.mem_cons_of_mem _ hp) q (List.mem_cons_of_mem _ hq), getElem?_apply]
      by_cases hpos : p.init = pos
      · have hnone : ps.find? (fun q => q.init == pos) = none := by
          rw [List.find?_eq_none]
          intro q hq
          simpa [hpos] using (hcalls.1 q hq).symm
        rw [if_pos hpos, hnone, List.find?_cons_of_pos (by simpa using hpos), Option.map_map]
        rfl
      · rw [if_neg hpos, List.find?_cons_of_neg (by simpa using hpos)]
        congr 1
        funext i
        cases hfind : ps.find? fun q => q.init == pos with
        | none => rfl
        | some q =>
            dsimp only
            rw [hsame (List.mem_cons_of_mem _ (List.mem_of_find?_eq_some hfind))]

/-- The instructions of a block that stay, with those that are rewritten. -/
def folded (ps : List Construction) (b : Nat) (insns : List Insn) : List Insn :=
  (insns.zipIdx.filter fun x => stays ps b x.2).map fun x => rewritten ps insns b x.2 x.1

theorem applyAll_eq_folded (hcalls : ps.Pairwise fun p q => p.block = q.block → p.init ≠ q.init)
    (hapart : ∀ p ∈ ps, ∀ q ∈ ps, p.block = q.block → q.created ≠ some p.init)
    (hspare : ((ps.filter (·.block == b)).flatMap spare).Nodup) :
    applyAll (ps.filter (·.block == b)) insns = folded ps b insns := by
  have hblock {p : Construction} (hp : p ∈ ps.filter (·.block == b)) : p ∈ ps ∧ p.block = b := by
    simpa using List.mem_filter.mp hp
  have hperm := List.mergeSort_perm ((ps.filter (·.block == b)).flatMap spare) fun a b => b ≤ a
  have hsorted : (((ps.filter (·.block == b)).flatMap spare).mergeSort fun a b => b ≤ a).Pairwise (· > ·) := by
    have hle := @List.pairwise_mergeSort Nat (fun a b => b ≤ a) (by simp; omega) (by simp; omega)
      ((ps.filter (·.block == b)).flatMap spare)
    refine (hle.and (hperm.nodup_iff.mpr hspare)).imp ?_
    rintro x y ⟨hxy, hne⟩
    simp only [decide_eq_true_eq] at hxy
    omega
  rw [applyAll, foldl_eraseIdx hsorted, folded]
  have hcalls' : (ps.filter (·.block == b)).Pairwise fun p q => p.init ≠ q.init := by
    refine (hcalls.filter _).imp_of_mem ?_
    intro p q hp hq hne
    exact hne ((hblock hp).2.trans (hblock hq).2.symm)
  have hget (pos : Nat) : ((ps.filter (·.block == b)).foldl apply insns)[pos]? =
      insns[pos]?.map (rewritten ps insns b pos) := by
    rw [getElem?_foldl_apply hcalls' fun p hp q hq =>
      hapart p (hblock hp).1 q (hblock hq).1 ((hblock hp).2.trans (hblock hq).2.symm)]
    congr 1
    funext i
    rw [rewritten, List.find?_filter]
    simp only [Bool.decide_and, Bool.decide_eq_true]
  have hzip : ((ps.filter (·.block == b)).foldl apply insns).zipIdx =
      insns.zipIdx.map fun x => (rewritten ps insns b x.2 x.1, x.2) := by
    apply List.ext_getElem?
    intro pos
    rw [List.getElem?_zipIdx, hget, List.getElem?_map, List.getElem?_zipIdx, Option.map_map, Option.map_map]
    simp only [Function.comp_def, Nat.zero_add]
  rw [hzip, List.filter_map, List.map_map]
  congr 1
  apply List.filter_congr
  intro x hx
  rw [Function.comp_apply, stays, Bool.eq_iff_iff]
  simp only [Bool.not_eq_true', ← Bool.not_eq_true, List.contains_iff_mem, hperm.mem_iff]

theorem stays_iff : stays ps b pos = true ↔
    ∀ p ∈ ps, p.block = b → p.created ≠ some pos ∧ p.copied ≠ some pos := by
  simp only [stays, spare, Bool.not_eq_true', ← Bool.not_eq_true, List.contains_iff_mem, List.mem_flatMap,
    List.mem_filter, beq_iff_eq, List.mem_append, Option.mem_toList]
  constructor
  · intro h p hp hb
    exact ⟨fun hn => h ⟨p, ⟨hp, hb⟩, .inl hn⟩, fun hm => h ⟨p, ⟨hp, hb⟩, .inr hm⟩⟩
  · rintro h ⟨p, ⟨hp, hb⟩, hn | hm⟩
    · exact (h p hp hb).1 hn
    · exact (h p hp hb).2 hm

theorem exists_of_not_stays (h : ¬ stays ps b pos = true) :
    ∃ p ∈ ps, p.block = b ∧ (p.created = some pos ∨ p.copied = some pos) := by
  rw [stays_iff] at h
  push Not at h
  obtain ⟨p, hp, hb, h⟩ := h
  exact ⟨p, hp, hb, Decidable.or_iff_not_imp_left.mpr h⟩

theorem place_succ_of_stays (h : stays ps b pos = true) : place ps b (pos + 1) = place ps b pos + 1 := by
  rw [place, keptBefore_succ, if_pos h]
  rfl

theorem place_succ_of_not_stays (h : ¬ stays ps b pos = true) : place ps b (pos + 1) = place ps b pos := by
  rw [place, keptBefore_succ, if_neg h]
  rfl

theorem getElem?_folded (hi : insns[pos]? = some i) (hstays : stays ps b pos = true) :
    (folded ps b insns)[place ps b pos]? = some (rewritten ps insns b pos i) := by
  rw [folded, List.getElem?_map, place, getElem?_filter_zipIdx hi hstays]
  rfl

theorem length_folded : (folded ps b insns).length = place ps b insns.length := by
  rw [folded, List.length_map, length_filter_zipIdx]
  rfl

theorem exists_of_folded {j : Insn} (h : (folded ps b insns)[n]? = some j) : ∃ pos i, insns[pos]? = some i ∧
    stays ps b pos = true ∧ place ps b pos = n ∧ j = rewritten ps insns b pos i := by
  have hn := (List.getElem?_eq_some_iff.mp h).1
  rw [length_folded] at hn
  obtain ⟨pos, hpos, hstays, rfl⟩ := exists_of_lt_keptBefore hn
  have hi := List.getElem?_eq_getElem hpos
  exact ⟨pos, _, hi, hstays, rfl, Option.some.inj (h.symm.trans (getElem?_folded hi hstays))⟩

theorem rewritten_of_not_init (h : ∀ p ∈ ps, p.block = b → p.init ≠ pos) : rewritten ps insns b pos i = i := by
  have hnone : ps.find? (fun p => p.block == b && p.init == pos) = none := by
    rw [List.find?_eq_none]
    intro p hp
    simpa using h p hp
  rw [rewritten, hnone]

theorem rewritten_init {c : Chain} (hp : p ∈ plans g c) :
    rewritten (plans g c) insns p.block p.init i = construct (p.created.bind fun n => (insns[n]?).bind resultOf) i := by
  have hfind : (plans g c).find? (fun q => q.block == p.block && q.init == p.init) = some p := by
    refine find?_eq_of_unique hp (by simp) fun q hq hsame => ?_
    simp only [Bool.and_eq_true, beq_iff_eq] at hsame
    exact eq_of_init hq hp hsame.1 hsame.2
  rw [rewritten, hfind]

theorem pairwise_plans (g : Graph) (c : Chain) :
    (plans g c).Pairwise fun p q => p.block = q.block → p.init ≠ q.init := by
  have hzip {α : Type} (l : List α) : l.zipIdx.Pairwise fun x y => x.2 < y.2 := by
    rw [← List.pairwise_map, map_snd_zipIdx]
    exact List.pairwise_lt_range
  unfold plans
  rw [List.pairwise_flatMap]
  constructor
  · rintro ⟨block, b⟩ -
    unfold plansOf
    rw [List.pairwise_filterMap]
    refine (hzip block.insns).imp ?_
    rintro ⟨i, n⟩ ⟨j, m⟩ hlt p hp q hq -
    rw [(eq_of_plan? hp).2, (eq_of_plan? hq).2]
    exact Nat.ne_of_lt hlt
  · refine (hzip g.blocks.toList).imp ?_
    rintro ⟨block, b⟩ ⟨block', b'⟩ hlt p hp q hq hblock
    obtain ⟨⟨i, n⟩, -, hp⟩ := List.mem_filterMap.mp hp
    obtain ⟨⟨j, m⟩, -, hq⟩ := List.mem_filterMap.mp hq
    rw [(eq_of_plan? hp).1, (eq_of_plan? hq).1] at hblock
    exact (Nat.ne_of_lt hlt hblock).elim

section

variable (hplain : ∀ p ∈ plans g (Chain.build g entry), p.Plain g)
include hplain

theorem nodup_spare (b : Nat) : (((plans g (Chain.build g entry)).filter (·.block == b)).flatMap spare).Nodup := by
  have hblock {p : Construction} (hp : p ∈ (plans g (Chain.build g entry)).filter (·.block == b)) :
      p ∈ plans g (Chain.build g entry) ∧ p.block = b := by
    simpa using List.mem_filter.mp hp
  rw [List.nodup_flatMap]
  constructor
  · intro p hp
    obtain ⟨hp, -⟩ := hblock hp
    have hone (o : Option Nat) : o.toList.Nodup := by cases o <;> simp
    refine List.nodup_append.mpr ⟨hone _, hone _, ?_⟩
    intro n hn m hm
    exact created_ne_copied hp hp rfl (Option.mem_toList.mp hn) (Option.mem_toList.mp hm)
  · refine ((pairwise_plans g _).filter _).imp_of_mem ?_
    intro p q hp hq hne n hnp hnq
    obtain ⟨hp, hpb⟩ := hblock hp
    obtain ⟨hq, hqb⟩ := hblock hq
    have heq : p.block = q.block := hpb.trans hqb.symm
    refine hne heq (congrArg init ?_)
    simp only [spare, List.mem_append, Option.mem_toList] at hnp hnq
    rcases hnp with hnp | hnp <;> rcases hnq with hnq | hnq
    · exact eq_of_created hp hq (hplain p hp) (hplain q hq) heq hnp hnq
    · exact (created_ne_copied hp hq heq hnp hnq rfl).elim
    · exact (created_ne_copied hq hp heq.symm hnq hnp rfl).elim
    · exact eq_of_copied hp hq heq hnp hnq

theorem block_foldAll (b : Nat) : (foldAll g (Chain.build g entry)).1.block b =
    { g.block b with insns := folded (plans g (Chain.build g entry)) b (g.block b).insns } := by
  have hfold (insns : List Insn) : applyAll ((plans g (Chain.build g entry)).filter (·.block == b)) insns =
      folded (plans g (Chain.build g entry)) b insns := by
    refine applyAll_eq_folded (pairwise_plans g _) ?_ (nodup_spare hplain b)
    intro p hp q hq hblock hn
    exact init_not_mem_spare hp hq hblock (List.mem_append_left _ (Option.mem_toList.mpr hn))
  unfold foldAll Graph.block
  dsimp only
  rw [Array.getElem?_mapIdx]
  cases g.blocks[b]? with
  | none => rfl
  | some block => rw [Option.map_some, Option.getD_some, Option.getD_some, hfold]

end

end Construction

end JavaLift
