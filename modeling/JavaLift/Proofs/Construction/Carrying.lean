import JavaLift.Proofs.Construction.Placing

/-!
How definitions are carried in a graph before and after its constructions have been folded. A definition that stays is
carried to the same instructions, and the instance's is carried from the call on. Between the instance and the call
other values of its register are carried further than before, and so are those of the copy's register from the copy on;
but there nothing reads them.
-/

namespace JavaLift

theorem Insn.overwrites_narrow {i : Insn} {r : Register} {reg : Nat} (hr : i.result = some r) (hwide : r.wide = false) :
    i.overwrites reg ↔ reg = r.reg := by
  constructor
  · rintro ⟨r', hr', hreg | ⟨htrue, -⟩⟩
    · rw [hreg, Option.some.inj (hr.symm.trans hr')]
    · rw [← Option.some.inj (hr.symm.trans hr'), hwide] at htrue
      cases htrue
  · exact fun hreg => ⟨r, hr, .inl hreg⟩

namespace Graph.Carried

variable {g : Graph} {d : Def} {b n pos j : Nat} {i : Insn}

/-- What is carried to an instruction after the one that makes it has come there straight. -/
theorem back (h : g.Carried d b pos) (hpos : pos ≤ (g.block b).insns.length) (hsite : d.site = .insn b n) (hn : n < j)
    (hj : j < pos) : g.Carried d b (j + 1) := by
  induction pos with
  | zero => omega
  | succ pos ih =>
      by_cases heq : j = pos
      · rwa [heq]
      · rcases (succ_iff (List.getElem?_eq_getElem hpos)).mp h with ⟨h, -⟩ | hmade
        · exact ih h (Nat.le_of_succ_le hpos) (by omega)
        · rw [hsite] at hmade
          cases hmade
          omega

/-- Nothing on the straight way overwrites it. -/
theorem not_overwrites (h : g.Carried d b pos) (hpos : pos ≤ (g.block b).insns.length) (hsite : d.site = .insn b n)
    (hn : n < j) (hj : j < pos) (hi : (g.block b).insns[j]? = some i) : ¬ i.overwrites d.reg := by
  rcases (succ_iff hi).mp (h.back hpos hsite hn hj) with ⟨-, hkeeps⟩ | hmade
  · exact hkeeps
  · rw [hsite] at hmade
    cases hmade
    omega

/-- Where nothing overwrites a register, what it holds in the end it has held from the start. -/
theorem of_free {entry : List Register} (h : g.Carried d b pos) (hd : d ∈ Chain.collectDefs g entry)
    (hpos : pos ≤ (g.block b).insns.length) (hn : n < pos)
    (hfree : ∀ j i, n < j → j < pos → (g.block b).insns[j]? = some i → ¬ i.overwrites d.reg) :
    g.Carried d b (n + 1) := by
  induction pos with
  | zero => omega
  | succ pos ih =>
      by_cases heq : n = pos
      · rwa [heq]
      · have hi := List.getElem?_eq_getElem hpos
        rcases (succ_iff hi).mp h with ⟨h, -⟩ | hmade
        · exact ih h (Nat.le_of_succ_le hpos) (by omega) fun j i hnj hj => hfree j i hnj (by omega)
        · obtain ⟨k, hk⟩ := List.mem_iff_getElem?.mp hd
          obtain ⟨i, r, hi', hr, rfl⟩ := Construction.exists_insn_of_site hk hmade
          exact (hfree pos i (by omega) (Nat.lt_succ_self pos) hi' ⟨r, hr, .inl rfl⟩).elim

theorem forward (h : g.Carried d b n) (hn : n ≤ pos) (hpos : pos ≤ (g.block b).insns.length)
    (hfree : ∀ j i, n ≤ j → j < pos → (g.block b).insns[j]? = some i → ¬ i.overwrites d.reg) :
    g.Carried d b pos := by
  induction pos with
  | zero => rwa [Nat.le_zero.mp hn] at h
  | succ pos ih =>
      by_cases heq : n = pos + 1
      · rwa [← heq]
      · have hi := List.getElem?_eq_getElem hpos
        have hbefore := ih (by omega) (Nat.le_of_succ_le hpos) fun j i hnj hj => hfree j i hnj (by omega)
        exact hbefore.next hi (hfree pos _ (by omega) (Nat.lt_succ_self pos) hi)

end Graph.Carried

namespace Construction

/-- Where a definition is made after folding: what the instance of a construction has been is made by its call. -/
def landed (ps : List Construction) : DefSite → DefSite
  | .entry => .entry
  | .insn b pos => .insn b (place ps b (match ps.find? fun p => p.block == b && p.created == some pos with
    | some p => p.init
    | none => pos))

variable {g : Graph} {entry : List Register} {b n m pos d e reg : Nat} {p q : Construction} {i : Insn} {r : Register}
  {x y : Def}

@[simp] theorem landed_eq_entry {ps : List Construction} {site : DefSite} :
    landed ps site = .entry ↔ site = .entry := by
  cases site <;> simp [landed]

theorem exists_of_landed {ps : List Construction} {site : DefSite} (h : landed ps site = .insn b n) :
    ∃ pos, site = .insn b pos := by
  cases site with
  | entry => cases h
  | insn c pos =>
      cases h
      exact ⟨pos, rfl⟩

theorem landed_of_stays {ps : List Construction} (h : stays ps b pos = true) :
    landed ps (.insn b pos) = .insn b (place ps b pos) := by
  have hnone : ps.find? (fun p => p.block == b && p.created == some pos) = none := by
    rw [List.find?_eq_none]
    intro p hp
    simpa using fun hb => (stays_iff.mp h p hp hb).1
  rw [landed, hnone]

/-- What makes a definition stays, unless it is an instance or a copy. -/
theorem stays_of_site {ps : List Construction} (hcopy : ∀ p ∈ ps, ∀ m, p.copied = some m → y.site ≠ .insn p.block m)
    (hsite : y.site = .insn b pos) (hcreated : ¬ ∃ p ∈ ps, p.block = b ∧ p.created = some pos) :
    stays ps b pos = true := by
  rw [stays_iff]
  intro p hp hb
  exact ⟨fun hn => hcreated ⟨p, hp, hb, hn⟩, fun hc => hcopy p hp pos hc (hb ▸ hsite)⟩

theorem Instance.result_rewritten (hx : Instance g entry p n d x) (hp : p ∈ plans g (Chain.build g entry))
    (hplain : p.Plain g) (hn : p.created = some n) (hi : (g.block p.block).insns[p.init]? = some i) :
    ∃ r, (rewritten (plans g (Chain.build g entry)) (g.block p.block).insns p.block p.init i).result = some r ∧
      r.reg = x.reg ∧ r.wide = false := by
  obtain ⟨j, r, hj, hr, rfl⟩ := exists_insn_of_site hx.def_eq hx.site
  obtain ⟨i', m, hi', hcall⟩ := exists_call hp
  obtain rfl := Option.some.inj (hi.symm.trans hi')
  have hnew := hx.isNew j hj
  obtain ⟨r', hr', hreg⟩ : ∃ r', resultOf j = some r' ∧ r'.reg = r.reg := by
    unfold Construction.isNew at hnew
    split at hnew
    · rename_i t hop
      rw [resultOf, hr, hop]
      refine ⟨_, rfl, ?_⟩
      split <;> rfl
    · cases hnew
  refine ⟨r', ?_, hreg, hplain.narrow n j r' hn hj (.inr hr')⟩
  rw [rewritten_init hp, hn, construct, hcall, Option.bind_some, hj, Option.bind_some, hr']

/-- A rewritten instruction overwrites no more than the instruction itself and the register of the instance. -/
theorem overwrites_rewritten (hplain : ∀ p ∈ plans g (Chain.build g entry), p.Plain g)
    (hi : (g.block b).insns[pos]? = some i)
    (h : (rewritten (plans g (Chain.build g entry)) (g.block b).insns b pos i).overwrites reg) :
    i.overwrites reg ∨ ∃ p ∈ plans g (Chain.build g entry), p.block = b ∧ p.init = pos ∧
      ∃ n d x, p.created = some n ∧ Instance g entry p n d x ∧ x.reg = reg := by
  by_cases hinit : ∃ p ∈ plans g (Chain.build g entry), p.block = b ∧ p.init = pos
  · obtain ⟨p, hp, rfl, rfl⟩ := hinit
    refine .inr ⟨p, hp, rfl, rfl, ?_⟩
    cases hn : p.created with
    | none =>
        obtain ⟨i', m, hi', hcall⟩ := exists_call hp
        obtain rfl := Option.some.inj (hi.symm.trans hi')
        rw [rewritten_init hp, hn, construct, hcall] at h
        exact (Insn.not_overwrites rfl h).elim
    | some n =>
        obtain ⟨d, x, hx⟩ := exists_instance hp hn
        obtain ⟨r, hr, hreg, hwide⟩ := hx.result_rewritten hp (hplain p hp) hn hi
        obtain ⟨r', hr', hover⟩ := h
        obtain rfl := Option.some.inj (hr.symm.trans hr')
        rcases hover with hover | ⟨htrue, -⟩
        · exact ⟨n, d, x, rfl, hx, (hover.trans hreg).symm⟩
        · rw [hwide] at htrue
          cases htrue
  · push Not at hinit
    rw [rewritten_of_not_init fun p hp hb => hinit p hp hb] at h
    exact .inl h

theorem stays_init (hp : p ∈ plans g (Chain.build g entry)) :
    stays (plans g (Chain.build g entry)) p.block p.init = true := by
  rw [stays_iff]
  intro q hq hblock
  have hspare := init_not_mem_spare hp hq hblock.symm
  exact ⟨fun hn => hspare (List.mem_append_left _ (Option.mem_toList.mpr hn)),
    fun hm => hspare (List.mem_append_right _ (Option.mem_toList.mpr hm))⟩

/-- What comes to the call in the register of the instance is the instance, or the copy if that is in the register. -/
theorem Instance.site_of_carried (hx : Instance g entry p n d x) (hp : p ∈ plans g (Chain.build g entry))
    (hplain : p.Plain g) (hn : p.created = some n) (hy : y ∈ Chain.collectDefs g entry)
    (hcarried : g.Carried y p.block p.init) (hreg : y.reg = x.reg) :
    y.site = .insn p.block n ∨ ∃ m, p.copied = some m ∧ y.site = .insn p.block m := by
  have hinit := Nat.le_of_lt (init_lt hp)
  obtain ⟨j, r, hj, hr, hxeq⟩ := exists_insn_of_site hx.def_eq hx.site
  -- Straight back from `pos` to the instance, on a way on which the instance itself is carried.
  have hback {pos : Nat} (hpos : pos ≤ p.init) (hlt : n < pos) (hxpos : g.Carried x p.block pos)
      (hypos : g.Carried y p.block pos) : y.site = .insn p.block n := by
    have hfree := hypos.of_free hy (hpos.trans hinit) hlt fun k i hnk hk hi => by
      rw [hreg]
      exact hxpos.not_overwrites (hpos.trans hinit) hx.site hnk hk hi
    rcases (Graph.Carried.succ_iff hj).mp hfree with ⟨-, hkeeps⟩ | hmade
    · exact (hkeeps ⟨r, hr, .inl (by rw [hreg, hxeq])⟩).elim
    · exact hmade
  have hordered := hplain.ordered n hn
  cases hcopied : p.copied with
  | none => exact .inl (hback (Nat.le_refl _) hordered (hx.direct hcopied).carried hcarried)
  | some m =>
      obtain ⟨hread, -⟩ := hx.copy m hcopied
      obtain ⟨hnm, hm⟩ := hplain.copy n m hn hcopied
      obtain ⟨k, hk⟩ : ∃ k, (g.block p.block).insns[m]? = some k :=
        ⟨_, List.getElem?_eq_getElem (Nat.lt_of_lt_of_le hm hinit)⟩
      have hafter := hcarried.of_free hy hinit hm fun pos i hmpos hpos hi => by
        have hkeeps := hplain.untouched n m j r pos i hn hcopied hj hr hmpos hpos hi
        rwa [hreg, hxeq]
      rcases (Graph.Carried.succ_iff hk).mp hafter with ⟨hbefore, -⟩ | hmade
      · exact .inl (hback (Nat.le_of_lt hm) hnm hread.carried hbefore)
      · exact .inr ⟨m, rfl, hmade⟩

section

variable (hplain : ∀ p ∈ plans g (Chain.build g entry), p.Plain g)
include hplain

theorem landed_created (hp : p ∈ plans g (Chain.build g entry)) (hn : p.created = some n) :
    landed (plans g (Chain.build g entry)) (.insn p.block n) =
      .insn p.block (place (plans g (Chain.build g entry)) p.block p.init) := by
  have hfind : (plans g (Chain.build g entry)).find? (fun q => q.block == p.block && q.created == some n) = some p := by
    refine find?_eq_of_unique hp (by simp [hn]) fun q hq hsame => ?_
    simp only [Bool.and_eq_true, beq_iff_eq] at hsame
    exact eq_of_created hq hp (hplain q hq) (hplain p hp) hsame.1 hsame.2 hn
  rw [landed, hfind]

theorem insns_foldAll (b : Nat) : ((foldAll g (Chain.build g entry)).1.block b).insns =
    folded (plans g (Chain.build g entry)) b (g.block b).insns := by rw [block_foldAll hplain]

theorem succs_foldAll (b : Nat) : (foldAll g (Chain.build g entry)).1.succs b = g.succs b := by
  rw [Graph.succs, block_foldAll hplain]
  rfl

theorem handlers_foldAll (b : Nat) : (foldAll g (Chain.build g entry)).1.handlers b = g.handlers b := by
  rw [Graph.handlers, block_foldAll hplain]
  rfl

/-- One more instruction, in the folded graph. -/
theorem next_foldAll (h : (foldAll g (Chain.build g entry)).1.Carried y b (place (plans g (Chain.build g entry)) b pos))
    (hi : (g.block b).insns[pos]? = some i) (hkeeps : ¬ i.overwrites y.reg)
    (hcall : ∀ p ∈ plans g (Chain.build g entry), p.block = b → p.init = pos → ∀ n d x, p.created = some n →
      Instance g entry p n d x → x.reg ≠ y.reg) :
    (foldAll g (Chain.build g entry)).1.Carried y b (place (plans g (Chain.build g entry)) b (pos + 1)) := by
  by_cases hstays : stays (plans g (Chain.build g entry)) b pos = true
  · rw [place_succ_of_stays hstays]
    have hget := getElem?_folded hi hstays
    rw [← insns_foldAll hplain] at hget
    refine h.next hget fun hover => ?_
    rcases overwrites_rewritten hplain hi hover with hover | ⟨p, hp, hb, hinit, n, d, x, hn, hx, hreg⟩
    · exact hkeeps hover
    · exact hcall p hp hb hinit n d x hn hx hreg
  · rwa [place_succ_of_not_stays hstays]

/-- The instance of a construction is carried from the call on. -/
theorem made_foldAll {y' : Def} (hp : p ∈ plans g (Chain.build g entry)) (hn : p.created = some n)
    (hsite : y.site = .insn p.block n) (hsite' : y'.site = landed (plans g (Chain.build g entry)) y.site) :
    (foldAll g (Chain.build g entry)).1.Carried y' p.block
      (place (plans g (Chain.build g entry)) p.block (p.init + 1)) := by
  rw [place_succ_of_stays (stays_init hp)]
  exact .made (by rw [hsite', hsite, landed_created hplain hp hn])

/-- A definition that is made by no copy is carried on as before, but for the straight way from an instance to its
call. -/
theorem carried_foldAll {y' : Def} (hy : y ∈ Chain.collectDefs g entry)
    (hcopy : ∀ p ∈ plans g (Chain.build g entry), ∀ m, p.copied = some m → y.site ≠ .insn p.block m)
    (hreg : y'.reg = y.reg) (hsite : y'.site = landed (plans g (Chain.build g entry)) y.site)
    (h : g.Carried y b pos) :
    (foldAll g (Chain.build g entry)).1.Carried y' b (place (plans g (Chain.build g entry)) b pos) ∨
      ∃ p ∈ plans g (Chain.build g entry), ∃ n, p.created = some n ∧ y.site = .insn p.block n ∧ p.block = b ∧
        n < pos ∧ pos ≤ p.init := by
  induction h with
  | entry he => exact .inl (.entry (by rw [hsite, he]; rfl))
  | @made b pos hm =>
      by_cases hcreated : ∃ p ∈ plans g (Chain.build g entry), p.block = b ∧ p.created = some pos
      · obtain ⟨p, hp, rfl, hn⟩ := hcreated
        exact .inr ⟨p, hp, pos, hn, hm, rfl, Nat.lt_succ_self pos, (hplain p hp).ordered pos hn⟩
      · have hstays := stays_of_site hcopy hm hcreated
        rw [place_succ_of_stays hstays]
        exact .inl (.made (by rw [hsite, hm, landed_of_stays hstays]))
  | @next b pos i hbefore hi hkeeps ih =>
      rcases ih with ih | ⟨p, hp, n, hn, hm, rfl, hlt, hle⟩
      · by_cases hcall : ∃ p ∈ plans g (Chain.build g entry), p.block = b ∧ p.init = pos ∧ ∃ n d x,
            p.created = some n ∧ Instance g entry p n d x ∧ x.reg = y.reg
        · -- Only the instance itself comes to the call in its register, and the call makes it anew.
          obtain ⟨p, hp, rfl, rfl, n, d, x, hn, hx, hxreg⟩ := hcall
          rcases hx.site_of_carried hp (hplain p hp) hn hy hbefore hxreg.symm with hm | ⟨m, hc, hm⟩
          · exact .inl (made_foldAll hplain hp hn hm hsite)
          · exact (hcopy p hp m hc hm).elim
        · refine .inl (next_foldAll hplain ih hi (hreg ▸ hkeeps) ?_)
          intro p hp hb hinit n d x hn hx hxreg
          exact hcall ⟨p, hp, hb, hinit, n, d, x, hn, hx, hxreg.trans hreg⟩
      · rcases Nat.lt_or_eq_of_le hle with hlt' | rfl
        · exact .inr ⟨p, hp, n, hn, hm, rfl, Nat.lt_succ_of_lt hlt, hlt'⟩
        · exact .inl (made_foldAll hplain hp hn hm hsite)
  | edge _ hc ih =>
      rcases ih with ih | ⟨p, hp, n, -, -, rfl, -, hle⟩
      · rw [← length_folded, ← insns_foldAll hplain] at ih
        exact .inl (ih.edge (by rwa [succs_foldAll hplain]))
      · exact absurd (init_lt hp) (Nat.not_lt.mpr hle)
  | thrown _ hc ih =>
      rcases ih with ih | ⟨p, hp, n, -, -, -, hlt, -⟩
      · exact .inl (ih.thrown (by rwa [handlers_foldAll hplain]))
      · exact (Nat.not_lt_zero n hlt).elim
  | thrownMade hm hc =>
      refine .inl (.thrownMade (by rw [hsite, hm]; rfl) ?_)
      rwa [handlers_foldAll hplain]

end

/-- The register holds an instance on the straight way to its call, or the copy of an instance. Other values that come
here once both are gone are read by nothing. -/
inductive Shadowed (g : Graph) (entry : List Register) (reg b pos : Nat) : Prop where
  | made {p : Construction} {n d : Nat} {x : Def} (mem : p ∈ plans g (Chain.build g entry))
      (created : p.created = some n) (inst : Instance g entry p n d x) (reg_eq : x.reg = reg) (block : p.block = b)
      (after : n < pos) (upto : pos ≤ p.init) (carried : g.Carried x b pos)
  | copied {p : Construction} {m e : Nat} {y : Def} (mem : p ∈ plans g (Chain.build g entry))
      (copied : p.copied = some m) (received : Receives g entry p.block p.init e m y)
      (single : (Chain.build g entry).isSingleUse e = true) (reg_eq : y.reg = reg) (carried : g.Carried y b pos)

/-- The definition is carried to the place, or shadowed there. -/
def Comes (g : Graph) (entry : List Register) (y : Def) (b pos : Nat) : Prop :=
  g.Carried y b pos ∨ Shadowed g entry y.reg b pos

theorem Shadowed.next (h : Shadowed g entry reg b pos) (hi : (g.block b).insns[pos]? = some i)
    (hkeeps : ¬ i.overwrites reg) (hcall : ∀ p ∈ plans g (Chain.build g entry), p.block = b → p.init = pos →
      ∀ n d x, p.created = some n → Instance g entry p n d x → x.reg ≠ reg) :
    Shadowed g entry reg b (pos + 1) := by
  cases h with
  | made mem created inst reg_eq block after upto carried =>
      have hne : _ ≠ pos := fun h => hcall _ mem block h _ _ _ created inst reg_eq
      exact .made mem created inst reg_eq block (by omega) (by omega) (carried.next hi (reg_eq ▸ hkeeps))
  | copied mem copied received single reg_eq carried =>
      exact .copied mem copied received single reg_eq (carried.next hi (reg_eq ▸ hkeeps))

theorem Comes.next (h : Comes g entry y b pos) (hi : (g.block b).insns[pos]? = some i)
    (hkeeps : ¬ i.overwrites y.reg) (hcall : ∀ p ∈ plans g (Chain.build g entry), p.block = b → p.init = pos →
      ∀ n d x, p.created = some n → Instance g entry p n d x → x.reg ≠ y.reg) :
    Comes g entry y b (pos + 1) :=
  h.imp (fun h => h.next hi hkeeps) fun h => h.next hi hkeeps hcall

/-- Only copies shadow a register beyond a block, since the call of an instance is in its block. -/
theorem Comes.edge {c : Nat} (h : Comes g entry y b (g.block b).insns.length) (hc : c ∈ g.succs b) :
    Comes g entry y c 0 := by
  rcases h with h | h
  · exact .inl (h.edge hc)
  · cases h with
    | made mem created inst reg_eq block after upto carried =>
        subst block
        exact absurd (init_lt mem) (Nat.not_lt.mpr upto)
    | copied mem copied received single reg_eq carried =>
        exact .inr (.copied mem copied received single reg_eq (carried.edge hc))

theorem Comes.thrown {c : Nat} (h : Comes g entry y b 0) (hc : c ∈ g.handlers b) : Comes g entry y c 0 := by
  rcases h with h | h
  · exact .inl (h.thrown hc)
  · cases h with
    | made mem created inst reg_eq block after upto carried => exact (Nat.not_lt_zero _ after).elim
    | copied mem copied received single reg_eq carried =>
        exact .inr (.copied mem copied received single reg_eq (carried.thrown hc))

section

variable (hplain : ∀ p ∈ plans g (Chain.build g entry), p.Plain g)
include hplain

/-- What is taken out only shadows what it overwrites. -/
theorem Comes.skip (h : Comes g entry y b pos) (hi : (g.block b).insns[pos]? = some i)
    (hgone : ¬ stays (plans g (Chain.build g entry)) b pos = true) : Comes g entry y b (pos + 1) := by
  have hcall : ∀ p ∈ plans g (Chain.build g entry), p.block = b → p.init = pos → ∀ n d x, p.created = some n →
      Instance g entry p n d x → x.reg ≠ y.reg := by
    rintro p hp rfl rfl
    exact (hgone (stays_init hp)).elim
  by_cases hover : i.overwrites y.reg
  · obtain ⟨p, hp, rfl, hn | hm⟩ := exists_of_not_stays hgone
    · obtain ⟨d, x, hx⟩ := exists_instance hp hn
      obtain ⟨i', r, hi', hr, hxeq⟩ := exists_insn_of_site hx.def_eq hx.site
      obtain rfl := Option.some.inj (hi.symm.trans hi')
      rw [Insn.overwrites_narrow hr ((hplain p hp).narrow pos i r hn hi (.inl hr))] at hover
      have hreg : x.reg = y.reg := by rw [hxeq, hover]
      exact .inr (.made hp hn hx hreg rfl (Nat.lt_succ_self pos) ((hplain p hp).ordered pos hn) (.made hx.site))
    · obtain ⟨n, hn⟩ := exists_created hp hm
      obtain ⟨d, x, hx⟩ := exists_instance hp hn
      obtain ⟨-, -, e, z, hz, hsingle⟩ := hx.copy pos hm
      obtain ⟨i', r, hi', hr, hzeq⟩ := exists_insn_of_site hz.def_eq hz.site
      obtain rfl := Option.some.inj (hi.symm.trans hi')
      rw [Insn.overwrites_narrow hr ((hplain p hp).narrowCopy pos i r hm hi hr)] at hover
      have hreg : z.reg = y.reg := by rw [hzeq, hover]
      exact .inr (.copied hp hm hz hsingle hreg (.made hz.site))
  · exact h.next hi hover hcall

/-- The places that become one when instructions are taken out are the same for what comes to them. -/
theorem Comes.of_place_eq (h : Comes g entry y b n) (hn : n ≤ pos) (hpos : pos ≤ (g.block b).insns.length)
    (hplace : place (plans g (Chain.build g entry)) b pos = place (plans g (Chain.build g entry)) b n) :
    Comes g entry y b pos := by
  induction pos with
  | zero => rwa [Nat.le_zero.mp hn] at h
  | succ pos ih =>
      by_cases heq : n = pos + 1
      · rwa [← heq]
      · have hle : n ≤ pos := by omega
        have hmono : place _ b n ≤ place (plans g (Chain.build g entry)) b pos := keptBefore_mono hle
        by_cases hstays : stays (plans g (Chain.build g entry)) b pos = true
        · rw [place_succ_of_stays hstays] at hplace
          omega
        · rw [place_succ_of_not_stays hstays] at hplace
          exact (ih hle (Nat.le_of_succ_le hpos) hplace).skip hplain (List.getElem?_eq_getElem hpos) hstays

/-- After an instruction that stays, up to the next one that does. -/
theorem Comes.after (h : Comes g entry y b (n + 1)) (hstays : stays (plans g (Chain.build g entry)) b n = true)
    (hpos : pos ≤ (g.block b).insns.length)
    (hplace : place (plans g (Chain.build g entry)) b pos = place (plans g (Chain.build g entry)) b n + 1) :
    Comes g entry y b pos := by
  have hlt : n + 1 ≤ pos := by
    by_contra hle
    have hmono : place _ b pos ≤ place (plans g (Chain.build g entry)) b n := keptBefore_mono (by omega)
    omega
  exact h.of_place_eq hplain hlt hpos (by rw [hplace, place_succ_of_stays hstays])

/-- An instance comes to the place after its call, or its copy does. -/
theorem comes_after_call (hx : Instance g entry p n d x) (hp : p ∈ plans g (Chain.build g entry))
    (hn : p.created = some n) : Comes g entry x p.block (p.init + 1) := by
  obtain ⟨call, method, hcall, -⟩ := exists_call hp
  have hkeeps {reg : Nat} : ¬ call.overwrites reg := Insn.not_overwrites ((hplain p hp).call call hcall)
  have hinit := Nat.le_of_lt (init_lt hp)
  cases hc : p.copied with
  | none => exact .inl ((hx.direct hc).carried.next hcall hkeeps)
  | some m =>
      obtain ⟨hread, -, e, z, hz, hsingle⟩ := hx.copy m hc
      obtain ⟨-, hm⟩ := (hplain p hp).copy n m hn hc
      obtain ⟨j, r, hj, hr, hxeq⟩ := exists_insn_of_site hx.def_eq hx.site
      obtain ⟨k, r', hk, hr', hzeq⟩ := exists_insn_of_site hz.def_eq hz.site
      by_cases hover : k.overwrites x.reg
      · rw [Insn.overwrites_narrow hr' ((hplain p hp).narrowCopy m k r' hc hk hr')] at hover
        have hreg : z.reg = x.reg := by rw [hzeq, hover]
        exact .inr (.copied hp hc hz hsingle hreg (hz.carried.next hcall hkeeps))
      · have hafter := (hread.carried.next hk hover).forward hm hinit fun pos i hmpos hpos hi => by
          have huntouched := (hplain p hp).untouched n m j r pos i hn hc hj hr hmpos hpos hi
          rwa [hxeq]
        exact .inl (hafter.next hcall hkeeps)

/-- What is carried to a place of the folded graph came there before, or is shadowed there. -/
theorem comes_of_carried {y' : Def} {k : Nat} (hreg : y'.reg = y.reg)
    (hy : (Chain.collectDefs g entry)[e]? = some y)
    (hcopy : ∀ p ∈ plans g (Chain.build g entry), ∀ m, p.copied = some m → y.site ≠ .insn p.block m)
    (hsite : y'.site = landed (plans g (Chain.build g entry)) y.site)
    (h : (foldAll g (Chain.build g entry)).1.Carried y' b k) :
    ∀ pos ≤ (g.block b).insns.length, place (plans g (Chain.build g entry)) b pos = k → Comes g entry y b pos := by
  have hstart {c : Nat} (h : Comes g entry y c 0) (pos : Nat) (hpos : pos ≤ (g.block c).insns.length)
      (hplace : place (plans g (Chain.build g entry)) c pos = 0) : Comes g entry y c pos :=
    h.of_place_eq hplain (Nat.zero_le pos) hpos hplace
  induction h with
  | entry he => exact hstart (.inl (.entry (landed_eq_entry.mp (hsite.symm.trans he))))
  | @made b k hm =>
      obtain ⟨s, hyb⟩ := exists_of_landed (hsite.symm.trans hm)
      intro pos hpos hplace
      by_cases hcreated : ∃ p ∈ plans g (Chain.build g entry), p.block = b ∧ p.created = some s
      · obtain ⟨p, hp, rfl, hn⟩ := hcreated
        rw [hsite, hyb, landed_created hplain hp hn] at hm
        cases hm
        obtain ⟨d, x, hx⟩ := exists_instance hp hn
        obtain ⟨rfl, rfl⟩ := Chain.same_of_site hx.def_eq hy hx.site hyb
        exact (comes_after_call hplain hx hp hn).after hplain (stays_init hp) hpos hplace
      · have hstays := stays_of_site hcopy hyb hcreated
        rw [hsite, hyb, landed_of_stays hstays] at hm
        cases hm
        exact Comes.after hplain (.inl (.made hyb)) hstays hpos hplace
  | @next b k j _ hj hkeeps ih =>
      rw [insns_foldAll hplain] at hj
      obtain ⟨s, i, hi, hstays, rfl, rfl⟩ := exists_of_folded hj
      have hs := (List.getElem?_eq_some_iff.mp hi).1
      intro pos hpos hplace
      refine Comes.after hplain ((ih s (Nat.le_of_lt hs) rfl).next hi (fun hover => ?_) ?_) hstays hpos hplace
      · by_cases hinit : ∃ p ∈ plans g (Chain.build g entry), p.block = b ∧ p.init = s
        · obtain ⟨p, hp, rfl, rfl⟩ := hinit
          exact Insn.not_overwrites ((hplain p hp).call i hi) hover
        · rw [rewritten_of_not_init fun p hp hb hs => hinit ⟨p, hp, hb, hs⟩, hreg] at hkeeps
          exact hkeeps hover
      · rintro p hp rfl rfl n d x hn hx hxreg
        obtain ⟨r, hr, hrx, -⟩ := hx.result_rewritten hp (hplain p hp) hn hi
        exact hkeeps ⟨r, hr, .inl (by rw [hreg, hrx, hxreg])⟩
  | edge _ hc ih =>
      rw [succs_foldAll hplain] at hc
      rw [insns_foldAll hplain, length_folded] at ih
      exact hstart ((ih _ (Nat.le_refl _) rfl).edge hc)
  | thrown _ hc ih =>
      rw [handlers_foldAll hplain] at hc
      exact hstart ((ih 0 (Nat.zero_le _) rfl).thrown hc)
  | thrownMade hm hc =>
      rw [handlers_foldAll hplain] at hc
      obtain ⟨s, hyb⟩ := exists_of_landed (hsite.symm.trans hm)
      exact hstart (.inl (.thrownMade hyb hc))

end

end Construction

end JavaLift
