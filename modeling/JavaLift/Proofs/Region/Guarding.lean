import JavaLift.Proofs.Region.Loops
import JavaLift.Proofs.Region.Opening

namespace JavaLift

open Region

variable {g : Graph} {insns : List Insn} {tries : List TryRange} {length : Nat} {regions : List Region} {b h : Nat}

namespace Region

/-- Among the regions, a guarded one with the block in its body has a handler at `h`. -/
def Guards (regions : List Region) (b h : Nat) : Prop :=
  ∃ body catches, .guarded body catches ∈ regions ∧ b ∈ carriers body ∧ ∃ c ∈ catches, c.1.block = h

def isGuarded : Region → Bool
  | .guarded .. => true
  | _ => false

theorem Guards.any (hguards : Guards regions b h) : regions.any isGuarded = true := by
  obtain ⟨body, catches, hmem, -⟩ := hguards
  exact List.any_eq_true.mpr ⟨_, hmem, rfl⟩

def isSwitch : Region → Bool
  | .switch .. => true
  | _ => false

/-- Control goes on in the range, and leaves no loop or switch that is around `a`. -/
def Stays (g : Graph) (regions : List Region) (t : TryRegion) (a m n : Nat) : Prop :=
  g.Goes m n ∧ n ∈ t.covered ∧ ¬ Leaves (Dominance.of g) regions a n

end Region

theorem Leaves.any {d : Dominance} {a n : Nat} (hleaves : Leaves d regions a n) :
    (regions.any fun r => isLoop r || isSwitch r) = true := by
  rcases hleaves with ⟨kind, header, cond, negated, body, hmem, -⟩ | ⟨header, cases, hmem, -⟩
  · exact List.any_eq_true.mpr ⟨_, hmem, rfl⟩
  · exact List.any_eq_true.mpr ⟨_, hmem, rfl⟩

theorem irreducible_of_quiet (hquiet : (Structured.of g).diagnostics = []) : (Structured.of g).irreducible = false := by
  obtain hof | ⟨items, p, hrun, hof⟩ := Structured.of_cases g
  · rw [hof] at hquiet
    cases hquiet
  · rw [hof]

theorem diagnostics_of (hred : (Structured.of g).irreducible = false) :
    (Structured.of g).diagnostics = ((everything g (Dominance.of g)).run .start).2.diagnostics := by
  obtain hof | ⟨items, p, hrun, hof⟩ := Structured.of_cases g
  · rw [hof] at hred
    cases hred
  · rw [hof, hrun]

/-- A tree with structure carries its blocks where the walk from the entry has left them. -/
theorem laid_of (hg : g.Ranged (Dominance.of g)) (hred : (Structured.of g).irreducible = false) :
    Laid g none .start ((everything g (Dominance.of g)).run .start).2 (carriers (Structured.of g).root)
      (nodes (Structured.of g).root) := by
  rw [root_of hred, carriers_ofList]
  exact (everything_settles hg .start).1.mono (nodesOf_subset_ofList _)

theorem sealed_of (h : Graph.build insns tries length = .ok g) (hquiet : (Structured.of g).diagnostics = []) :
    Sealed g (Dominance.of g) [] none .start ((everything g (Dominance.of g)).run .start).2
      (carriers (Structured.of g).root)
      (nodes (Structured.of g).root) := by
  have hred := irreducible_of_quiet hquiet
  have htable (b n : Nat) : ∀ e ∈ g.entryOf b n, e.1 ∈ g.succs b := by
    rcases Nat.lt_or_ge b g.size with hb | hb
    · exact (Graph.build_onward h b hb).table n
    · simp [Graph.entryOf, Graph.block_of_size_le hb, Block.exitOp?, Block.terminator?]
  rw [root_of hred, carriers_ofList]
  refine (everything_seals htable (build_ranged h) .start ?_).mono fun _ hr _ => nodesOf_subset_ofList _ hr
  rwa [diagnostics_of hred] at hquiet

def Graph.opened (g : Graph) : NatSet := ((everything g (Dominance.of g)).run .start).2.guarded

theorem latches_subset (h : Graph.build insns tries length = .ok g) :
    ∀ l ∈ (Dominance.of g).loops, l.latches ⊆ l.body := by
  have hrooted := Graph.build_rooted h
  intro l hl b hb
  have hidom := Dominance.hasIdoms_of hrooted.reached
  have hnatural := (Dominance.loops_of hrooted.entry_lt hrooted.reached hidom (Dominance.of g).ipdom).natural l hl
  exact hnatural.latch_mem hrooted.entry_lt hrooted.reached hb

/-- If nothing is remarked, just the due ranges are opened, except at a block that stands by itself and only holds the
comparison of a loop. -/
theorem mem_opened_iff (h : Graph.build insns tries length = .ok g) (hquiet : (Structured.of g).diagnostics = [])
    {k : Nat} {t : TryRegion} (ht : g.tries[k]? = some t) {a : Nat} (ha : t.covered.head? = some a) :
    k ∈ g.opened ↔ Due g (Dominance.of g) k t ∧
      ¬ (.block a ∈ nodes (Structured.of g).root ∧ (Dominance.of g).Closes g a) := by
  have hg := build_ranged h
  have hred := irreducible_of_quiet hquiet
  have hstart (n : Nat) : n ∉ NatSet.empty := fun hn => by
    have hempty : NatSet.empty.contains n = true := hn
    simp at hempty
  rw [diagnostics_of hred] at hquiet
  obtain ⟨-, hopening⟩ := everything_opens (latches_subset h) hg .start hquiet
  have hplain : .block a ∈ nodes (Structured.of g).root ↔
      a ∈ plainOf ((everything g (Dominance.of g)).run .start).1 := by
    rw [root_of hred, ← plainOf_ofList, mem_plainOf]
    simp [nodesOf]
  have hplaced := (everything_settles hg .start).2 a (hg.covered_lt t (List.mem_of_getElem? ht) a (List.mem_of_mem_head? ha))
  rw [hplain]
  exact (hopening fun n _ _ _ _ hn => absurd hn (hstart n)).opened a (hstart a) hplaced k t ht ha

/-- If nothing is remarked, a guarded range is opened exactly if it is due, unless its first block stands by itself and
only holds the comparison of a loop; that is so wherever no loop decides at the first block. The exceptions of a range
that is opened are caught by all of its handlers in each block that control comes to from the first one in the range and
in the constructs around it. -/
theorem Structured.guards_reached (h : Graph.build insns tries length = .ok g)
    (hquiet : (Structured.of g).diagnostics = [])
    {k : Nat} {t : TryRegion} (ht : g.tries[k]? = some t) {a : Nat} (ha : t.covered.head? = some a) :
    (k ∈ g.opened ↔ Due g (Dominance.of g) k t ∧
      ¬ (.block a ∈ nodes (Structured.of g).root ∧ (Dominance.of g).Closes g a)) ∧
    (¬ Decides (nodes (Structured.of g).root) a → k ∈ g.opened) ∧
    (k ∈ g.opened → ∀ b, Relation.ReflTransGen (Stays g (nodes (Structured.of g).root) t a) a b →
      ∀ x ∈ t.handlers, Guards (nodes (Structured.of g).root) b x.block) := by
  have hg := build_ranged h
  refine ⟨mem_opened_iff h hquiet ht ha, fun hloop => ?_, fun hopened b hway => ?_⟩
  · have hcarried : a ∈ carriers (Structured.of g).root :=
      (mem_carriers_of hg a).mpr (hg.covered_lt t (List.mem_of_getElem? ht) a (List.mem_of_mem_head? ha))
    rcases (laid_of hg (irreducible_of_quiet hquiet)).opened a hcarried with hlatch | hdecides | hopened
    · cases hlatch
    · exact absurd hdecides hloop
    · exact hopened k t ht ha
  · rcases (sealed_of h hquiet).opened k t ht hopened with hstart |
      ⟨body, catches, hmem, hcatches, a', -, ha', hin, hstays⟩
    · have hempty : NatSet.empty.contains k = true := hstart
      simp at hempty
    · obtain rfl : a = a' := Option.some.inj (ha.symm.trans ha')
      -- Of what control comes to in the range, only the constructs around it take anything out of the body.
      have hbody : b ∈ carriers body := by
        induction hway with
        | refl => exact hin
        | tail _ hstep ih =>
            obtain ⟨hgoes, hcovered, hnot⟩ := hstep
            exact (hstays _ ih _ hcovered hgoes).resolve_right (not_or.mpr ⟨fun hjump => hjump rfl, hnot⟩)
      exact fun x hx => ⟨body, catches, hmem, hbody, hcatches x hx⟩

/-- Calls `g`, `h` if the result is zero, and `g` again. A handler guards the calls. -/
def guardedChoice : List Insn :=
  [.of (.invoke .static ⟨"Foo", "g", [], .int⟩) [] (some (.plain 1)) 0, .of (.jumpIf .ne 3) [.ofReg 1] none 1,
    .of (.invoke .static ⟨"Foo", "h", [], .void⟩) [] none 2,
    .of (.invoke .static ⟨"Foo", "g", [], .int⟩) [] (some (.plain 1)) 3,
    .of .ret [] none 4, .of (.moveException none) [] (some (.plain 2)) 5, .of .ret [] none 6]

theorem Structured.guards_reached_guardedChoice :
    ∃ g, Graph.build guardedChoice [⟨0, 4, [⟨none, 5⟩]⟩] 7 = .ok g ∧ Guards (nodes (Structured.of g).root) 1 4 := by
  obtain ⟨g, hbuild, hquiet, htry, hif, hto, hconstructs⟩ :
    ∃ g, Graph.build guardedChoice [⟨0, 4, [⟨none, 5⟩]⟩] 7 = .ok g ∧
      (Structured.of g).diagnostics = [] ∧
      (g.tries.any fun t => t.covered == [0, 1, 2] && t.handlers.contains ⟨none, 4⟩) = true ∧
      (g.block 0).endsInIf = true ∧ g.branchTo 0 false = some 1 ∧
      ((nodes (Structured.of g).root).any fun r => isLoop r || isSwitch r) = false :=
    ⟨_, rfl, by decide +kernel, by decide +kernel, by decide +kernel, by decide +kernel, by decide +kernel⟩
  obtain ⟨t, ht, hfirst⟩ := List.any_eq_true.mp htry
  obtain ⟨hcovered, hhandler⟩ : t.covered = [0, 1, 2] ∧ ⟨none, 4⟩ ∈ t.handlers := by simpa using hfirst
  have hstays : Stays g (nodes (Structured.of g).root) t 0 0 1 := by
    refine ⟨.inr ⟨Graph.after_of_if hif, ⟨fun _ => false, fun _ => 0⟩, [], ?_⟩, by simp [hcovered], fun hleaves => ?_⟩
    · rw [Graph.move_deciding, if_pos hif]
      exact Graph.to_eq_entering.mpr hto
    · exact Bool.false_ne_true (hconstructs.symm.trans hleaves.any)
  obtain ⟨k, hk⟩ := List.mem_iff_getElem?.mp ht
  obtain ⟨-, hopened, hguards⟩ := Structured.guards_reached hbuild hquiet hk (by rw [hcovered]; rfl)
  refine ⟨g, hbuild, hguards (hopened fun hdecides => ?_) _ (.single hstays) _ hhandler⟩
  obtain ⟨r, hr, hloop⟩ := List.any_eq_true.mp hdecides.any
  have hany := List.any_eq_false.mp hconstructs r hr
  simp [hloop] at hany

/-- The loop tests at the first block of the guarded range, and the range is never opened. -/
theorem Structured.not_guards_guardedCalls :
    ∃ g, Graph.build guardedCalls [⟨0, 4, [⟨none, 5⟩]⟩] 7 = .ok g ∧ (Structured.of g).diagnostics = [] ∧
      ∃ b, ∃ h ∈ g.handlers b, ¬ Guards (nodes (Structured.of g).root) b h := by
  refine ⟨_, rfl, ?_, 0, 3, ?_, ?_⟩
  · decide +kernel
  · decide +kernel
  · exact fun hguards => absurd hguards.any (by decide +kernel)

end JavaLift
