import JavaLift.Proofs.ClassFile.Effects
import JavaLift.Proofs.Lookup

namespace JavaLift.ClassFile

variable {α : Type}

/-- Carries out a move. A wide one copies two registers at once. -/
def runMove (i : Insn) (regs : Nat → α) : Option (Nat → α) :=
  match i.op, i.args, i.result with
  | .move, [.reg source], some target => match source.wide, target.wide with
    | false, false => some (Function.update regs target.reg (regs source.reg))
    | true, true => some (Function.update (Function.update regs target.reg (regs source.reg)) (target.reg + 1)
        (regs (source.reg + 1)))
    | _, _ => none
  | _, _, _ => none

def runMoves (moves : List Insn) (regs : Nat → α) : Option (Nat → α) := moves.foldlM (fun regs i => runMove i regs) regs

namespace Placement

def Covers (w : Placement) (r : Nat) : Prop := w.target ≤ r ∧ r < w.target + w.value.category.slots

instance (w : Placement) (r : Nat) : Decidable (w.Covers r) := inferInstanceAs (Decidable (_ ∧ _))

def write (regs : Nat → α) (w : Placement) : Nat → α := fun r =>
  if w.Covers r then regs (w.value.reg + (r - w.target)) else regs r

theorem write_of_not_covers {w : Placement} {r : Nat} (regs : Nat → α) (h : ¬w.Covers r) : write regs w r = regs r :=
  if_neg h

theorem write_target {w : Placement} {k : Nat} (regs : Nat → α) (hk : k < w.value.category.slots) :
    write regs w (w.target + k) = regs (w.value.reg + k) := by
  have hcovers : w.Covers (w.target + k) := ⟨by omega, by omega⟩
  rw [write, if_pos hcovers, Nat.add_sub_cancel_left]

def move (pc : Nat) (w : Placement) : Insn := moveInsn pc w.target w.value.reg w.value.category

theorem runMove_move (pc : Nat) (w : Placement) (regs : Nat → α) : runMove (w.move pc) regs = some (write regs w) := by
  have hfirst : write regs w w.target = regs w.value.reg := write_target (k := 0) regs w.value.category.slots_pos
  obtain ⟨target, category, source⟩ := w
  cases category with
  | one =>
      refine congrArg some (funext fun r => ?_)
      by_cases h : r = target
      · rw [h, hfirst]
        exact Function.update_self ..
      · have hnot : ¬Covers ⟨target, .one, source⟩ r := by
          change ¬(target ≤ r ∧ r < target + 1)
          omega
        rw [write_of_not_covers _ hnot]
        exact Function.update_of_ne h ..
  | two =>
      have hsecond : write regs ⟨target, .two, source⟩ (target + 1) = regs (source + 1) :=
        write_target (k := 1) regs Nat.one_lt_two
      refine congrArg some (funext fun r => ?_)
      by_cases h' : r = target + 1
      · rw [h', hsecond]
        exact Function.update_self ..
      · refine (Function.update_of_ne h' ..).trans ?_
        by_cases h : r = target
        · rw [h, hfirst]
          exact Function.update_self ..
        · have hnot : ¬Covers ⟨target, .two, source⟩ r := by
            change ¬(target ≤ r ∧ r < target + 2)
            omega
          rw [write_of_not_covers _ hnot]
          exact Function.update_of_ne h ..

end Placement

theorem runMoves_map (pc : Nat) (ws : List Placement) (regs : Nat → α) :
    runMoves (ws.map (Placement.move pc)) regs = some (ws.foldl Placement.write regs) := by
  induction ws generalizing regs with
  | nil => rfl
  | cons w ws ih =>
      rw [List.map_cons, runMoves, List.foldlM_cons, Placement.runMove_move]
      exact ih _

/-- None of the values is written over before it is read, and none after it has arrived. -/
def Harmless (ws : List Placement) : Prop :=
  ws.Pairwise fun w w' => overlap w.target w.value.category w'.value.reg w'.value.category = false ∧
    overlap w.target w.value.category w'.target w'.value.category = false

theorem not_covers_of_overlap {w : Placement} {reg k : Nat} {c : Category}
    (h : overlap w.target w.value.category reg c = false) (hk : k < c.slots) : ¬w.Covers (reg + k) := by
  simp only [overlap, Bool.and_eq_false_iff, decide_eq_false_iff_not] at h
  unfold Placement.Covers
  omega

theorem foldl_write_of_not_covers {ws : List Placement} {r : Nat} (regs : Nat → α) (h : ∀ w ∈ ws, ¬w.Covers r) :
    ws.foldl Placement.write regs r = regs r := by
  induction ws generalizing regs with
  | nil => rfl
  | cons w ws ih =>
      rw [List.forall_mem_cons] at h
      rw [List.foldl_cons, ih _ h.2, Placement.write_of_not_covers _ h.1]

theorem foldl_write_target {ws : List Placement} (h : Harmless ws) (regs : Nat → α) :
    ∀ w ∈ ws, ∀ k < w.value.category.slots, ws.foldl Placement.write regs (w.target + k) = regs (w.value.reg + k) := by
  induction ws generalizing regs with
  | nil => exact nofun
  | cons w ws ih =>
      obtain ⟨hfirst, hrest⟩ := List.pairwise_cons.mp h
      rw [List.foldl_cons, List.forall_mem_cons]
      constructor
      · intro k hk
        have hkept : ∀ w' ∈ ws, ¬w'.Covers (w.target + k) := by
          intro w' hw'
          have hapart := (hfirst w' hw').2
          simp only [overlap, Bool.and_eq_false_iff, decide_eq_false_iff_not] at hapart
          unfold Placement.Covers
          omega
        rw [foldl_write_of_not_covers _ hkept, Placement.write_target _ hk]
      · intro w' hw' k hk
        rw [ih hrest _ w' hw' k hk]
        exact Placement.write_of_not_covers _ (not_covers_of_overlap (hfirst w' hw').1 hk)

theorem destroys_append (ws ws' : List Placement) (v : Held) :
    destroys (ws ++ ws') v = (destroys ws v || destroys ws' v) := List.any_append

/-- The values that are saved, laid out from the first temporary on. A value that is not saved is destroyed by none of
the placements before its own. -/
theorem savesFrom_spec {done : List Placement} {saved final : List (Held × Nat)} {temp : Nat} {rest : List Placement}
    (h : savesFrom done saved temp rest = final) :
    (∃ fresh ⊆ rest.map (·.value),
      final = saved ++ (placementsFrom temp fresh).map fun w => (w.value, w.target % 65536)) ∧
    (∀ w ∈ rest, final.lookup w.value = none → destroys done w.value = false) ∧
    rest.Pairwise fun w w' => final.lookup w'.value = none → destroys [w] w'.value = false := by
  induction rest generalizing done saved temp with
  | nil => exact ⟨⟨[], List.Subset.refl _, by simp [← h, savesFrom, placementsFrom]⟩, nofun, .nil⟩
  | cons w rest ih =>
      -- What no saved value is destroyed by is also none of the placements before this one.
      have hlater (hdone : ∀ w' ∈ rest, final.lookup w'.value = none → destroys (done ++ [w]) w'.value = false) :
          (∀ w' ∈ rest, final.lookup w'.value = none → destroys done w'.value = false) ∧
            ∀ w' ∈ rest, final.lookup w'.value = none → destroys [w] w'.value = false := by
        simp only [destroys_append, Bool.or_eq_false_iff] at hdone
        exact ⟨fun w' hw' hnone => (hdone w' hw' hnone).1, fun w' hw' hnone => (hdone w' hw' hnone).2⟩
      rw [savesFrom] at h
      split at h
      · obtain ⟨⟨fresh, hfresh, heq⟩, hdone, hpairs⟩ := ih h
        have hmem : (w.value, temp % 65536) ∈ final := by
          rw [heq]
          simp
        refine ⟨⟨w.value :: fresh, List.cons_subset_cons _ hfresh, ?_⟩, ?_, ?_⟩
        · rw [heq, placementsFrom, List.map_cons, List.append_assoc, List.singleton_append]
        · refine List.forall_mem_cons.mpr ⟨fun hnone => ?_, (hlater hdone).1⟩
          have hsome := Assoc.isSome_lookup hmem
          rw [hnone] at hsome
          cases hsome
        · exact List.pairwise_cons.mpr ⟨(hlater hdone).2, hpairs⟩
      · rename_i hkeep
        obtain ⟨⟨fresh, hfresh, heq⟩, hdone, hpairs⟩ := ih h
        refine ⟨⟨fresh, List.subset_cons_of_subset _ hfresh, heq⟩, ?_, ?_⟩
        · refine List.forall_mem_cons.mpr ⟨fun hnone => ?_, (hlater hdone).1⟩
          rw [heq, List.lookup_append, Option.or_eq_none_iff] at hnone
          simpa [hnone.1] using hkeep
        · exact List.pairwise_cons.mpr ⟨(hlater hdone).2, hpairs⟩

theorem isNone_lookup {saved : List (Held × Nat)} {v : Held} :
    (saved.lookup v).isNone = true ↔ v ∉ saved.map Prod.fst := by
  rw [Option.isNone_iff_eq_none, List.lookup_eq_none_iff, List.mem_map]
  constructor
  · rintro h ⟨x, hx, rfl⟩
    simpa using h x hx
  · intro h x hx
    exact bne_iff_ne.mpr fun he => h ⟨x, hx, he.symm⟩

def Held.shift (d : Nat) (v : Held) : Held := ⟨v.category, v.reg + d⟩

def Placement.shift (d : Nat) (w : Placement) : Placement := ⟨w.target + d, w.value.shift d⟩

theorem Held.shift_injective (d : Nat) : Function.Injective (Held.shift d) := by
  rintro ⟨c, reg⟩ ⟨c', reg'⟩ h
  simpa [Held.shift] using h

theorem overlap_shift (d a b : Nat) (c e : Category) : overlap (a + d) c (b + d) e = overlap a c b e := by
  refine Bool.eq_iff_iff.mpr ?_
  simp only [overlap, Bool.and_eq_true, decide_eq_true_eq]
  omega

theorem destroys_shift (d : Nat) (ws : List Placement) (v : Held) :
    destroys (ws.map (Placement.shift d)) (v.shift d) = destroys ws v := by
  rw [destroys, List.any_map]
  exact congrArg (List.any ws) (funext fun w => overlap_shift d ..)

theorem map_fst_savesFrom (d : Nat) (done : List Placement) {saved saved' : List (Held × Nat)} (temp temp' : Nat)
    (rest : List Placement) (h : saved'.map Prod.fst = (saved.map Prod.fst).map (Held.shift d)) :
    (savesFrom (done.map (Placement.shift d)) saved' temp' (rest.map (Placement.shift d))).map Prod.fst =
      ((savesFrom done saved temp rest).map Prod.fst).map (Held.shift d) := by
  induction rest generalizing done saved saved' temp temp' with
  | nil => exact h
  | cons w rest ih =>
      have hlookup : (saved'.lookup (w.value.shift d)).isNone = (saved.lookup w.value).isNone := by
        refine Bool.eq_iff_iff.mpr (isNone_lookup.trans (Iff.trans ?_ isNone_lookup.symm))
        rw [h, List.mem_map_of_injective (Held.shift_injective d)]
      have hdone : done.map (Placement.shift d) ++ [w.shift d] = (done ++ [w]).map (Placement.shift d) := by simp
      have hvalue : (w.shift d).value = w.value.shift d := rfl
      rw [List.map_cons, savesFrom, savesFrom, hvalue, hlookup, destroys_shift, hdone]
      split
      · exact ih _ _ _ (by simp [h])
      · exact ih _ _ _ h

def savedValues (writes : List Placement) : List Held := (savesFrom [] [] 0 writes).map Prod.fst

section

variable {reg : Nat} {values : List Held}

theorem map_value_placementsFrom (reg : Nat) (values : List Held) :
    (placementsFrom reg values).map (·.value) = values := by
  induction values generalizing reg with
  | nil => rfl
  | cons v values ih => rw [placementsFrom, List.map_cons, ih]

theorem value_mem_of_placementsFrom {w : Placement} (hw : w ∈ placementsFrom reg values) : w.value ∈ values := by
  rw [← map_value_placementsFrom reg values]
  exact List.mem_map_of_mem hw

theorem placementsFrom_within {w : Placement} (hw : w ∈ placementsFrom reg values) :
    reg ≤ w.target ∧ w.target + w.value.category.slots ≤ reg + slotCount (values.map (·.category)) := by
  induction values generalizing reg with
  | nil => cases hw
  | cons v values ih =>
      rw [List.map_cons, slotCount_cons]
      rcases List.mem_cons.mp hw with rfl | hw
      · dsimp only
        omega
      · have hlater := ih hw
        omega

theorem placementsFrom_apart (reg : Nat) (values : List Held) :
    (placementsFrom reg values).Pairwise fun w w' => w.target + w.value.category.slots ≤ w'.target := by
  induction values generalizing reg with
  | nil => exact .nil
  | cons v values ih =>
      exact List.pairwise_cons.mpr ⟨fun w hw => (placementsFrom_within hw).1, ih _⟩

theorem exists_covers {k : Nat} (hk : k < slotCount (values.map (·.category))) :
    ∃ w ∈ placementsFrom reg values, w.Covers (reg + k) := by
  induction values generalizing reg k with
  | nil => cases hk
  | cons v values ih =>
      rw [List.map_cons, slotCount_cons] at hk
      by_cases hfirst : k < v.category.slots
      · exact ⟨⟨reg, v⟩, List.mem_cons_self, Nat.le_add_right .., Nat.add_lt_add_left hfirst reg⟩
      · obtain ⟨w, hw, hcovers⟩ : ∃ w ∈ placementsFrom (reg + v.category.slots) values,
            w.Covers (reg + v.category.slots + (k - v.category.slots)) := ih (by omega)
        refine ⟨w, List.mem_cons_of_mem _ hw, ?_⟩
        rwa [Nat.add_assoc, Nat.add_sub_cancel' (Nat.not_lt.mp hfirst)] at hcovers

end

theorem savesFrom_eq (temp : Nat) (writes : List Placement) :
    savesFrom [] [] temp writes =
      (placementsFrom temp (savedValues writes)).map fun w => (w.value, w.target % 65536) := by
  obtain ⟨⟨fresh, -, heq⟩, -⟩ := savesFrom_spec (Eq.refl (savesFrom [] [] temp writes))
  rw [List.nil_append] at heq
  have hfresh : (savesFrom [] [] temp writes).map Prod.fst = fresh := by
    rw [heq, List.map_map]
    exact map_value_placementsFrom temp fresh
  have hvalues : savedValues writes = fresh := by
    have hwrites : writes.map (Placement.shift 0) = writes := List.map_id writes
    have hnone : ([] : List (Held × Nat)).map Prod.fst =
        (([] : List (Held × Nat)).map Prod.fst).map (Held.shift 0) := rfl
    have hmoved := map_fst_savesFrom 0 [] 0 temp writes hnone
    rw [hwrites, List.map_nil, hfresh] at hmoved
    exact (hmoved.trans (List.map_id _)).symm
  rw [heq, hvalues]

theorem savedValues_shift (d : Nat) (writes : List Placement) :
    savedValues (writes.map (Placement.shift d)) = (savedValues writes).map (Held.shift d) :=
  map_fst_savesFrom d [] 0 0 writes rfl

theorem savedValues_subset (writes : List Placement) : savedValues writes ⊆ writes.map (·.value) := by
  obtain ⟨⟨fresh, hfresh, heq⟩, -⟩ := savesFrom_spec (Eq.refl (savesFrom [] [] 0 writes))
  have hvalues : savedValues writes = fresh := by
    rw [savedValues, heq, List.nil_append, List.map_map]
    exact map_value_placementsFrom 0 fresh
  exact hvalues ▸ hfresh

def moved (placements : List Placement) : List Placement := placements.filter fun w => w.target ≠ w.value.reg

def saves (temp : Nat) (placements : List Placement) : List Placement :=
  (placementsFrom temp (savedValues (moved placements))).map fun w => ⟨w.target % 65536, w.value⟩

/-- Where a value is taken from on the way to its target. -/
def sourceOf (temp : Nat) (placements : List Placement) (v : Held) : Nat :=
  ((savesFrom [] [] temp (moved placements)).lookup v).getD v.reg

def arrivals (temp : Nat) (placements : List Placement) : List Placement :=
  (moved placements).map fun w => ⟨w.target, w.value.category, sourceOf temp placements w.value⟩

theorem movesFor_eq (pc temp : Nat) (placements : List Placement) :
    movesFor pc temp placements = (saves temp placements ++ arrivals temp placements).map (Placement.move pc) := by
  rw [List.map_append, saves, arrivals, List.map_map, List.map_map]
  refine congrArg₂ (· ++ ·) ?_ rfl
  change (savesFrom [] [] temp (moved placements)).map _ = _
  rw [savesFrom_eq, List.map_map]
  rfl

section

variable {temp start : Nat} {values : List Held}

/-- The registers of values below the temporaries, that are to be laid out below the temporaries. -/
structure Below (temp start : Nat) (values : List Held) : Prop where
  held : ∀ v ∈ values, v.reg + v.category.slots ≤ temp
  room : start + slotCount (values.map (·.category)) ≤ temp

def TempsFit (temp : Nat) (placements : List Placement) : Prop :=
  temp + slotCount ((savedValues (moved placements)).map (·.category)) ≤ 65536

theorem value_mem_of_moved {w : Placement} (hw : w ∈ moved (placementsFrom start values)) : w.value ∈ values :=
  value_mem_of_placementsFrom (List.mem_of_mem_filter hw)

theorem saved_subset : savedValues (moved (placementsFrom start values)) ⊆ values := by
  intro v hv
  obtain ⟨w, hw, rfl⟩ := List.mem_map.mp (savedValues_subset _ hv)
  exact value_mem_of_moved hw

theorem saves_eq (hfit : TempsFit temp (placementsFrom start values)) :
    saves temp (placementsFrom start values) =
      placementsFrom temp (savedValues (moved (placementsFrom start values))) := by
  refine (List.map_congr_left fun w hw => ?_).trans (List.map_id _)
  have hwithin := (placementsFrom_within hw).2
  have hpos := w.value.category.slots_pos
  have hlt : w.target < 65536 := by
    unfold TempsFit at hfit
    omega
  rw [Nat.mod_eq_of_lt hlt]
  rfl

theorem saves_harmless (hbelow : Below temp start values) (hfit : TempsFit temp (placementsFrom start values)) :
    Harmless (saves temp (placementsFrom start values)) := by
  rw [saves_eq hfit]
  refine (placementsFrom_apart _ _).imp_of_mem fun {w w'} hw hw' hapart => ?_
  have hmem : w'.value ∈ values := saved_subset (value_mem_of_placementsFrom hw')
  have hheld := hbelow.held _ hmem
  have hfrom := (placementsFrom_within hw).1
  simp only [overlap, Bool.and_eq_false_iff, decide_eq_false_iff_not]
  omega

theorem temp_le_of_mem_saves (hfit : TempsFit temp (placementsFrom start values)) {w : Placement}
    (hw : w ∈ saves temp (placementsFrom start values)) : temp ≤ w.target := by
  rw [saves_eq hfit] at hw
  exact (placementsFrom_within hw).1

theorem mem_saves_of_lookup {v : Held} {t : Nat} {placements : List Placement}
    (h : (savesFrom [] [] temp (moved placements)).lookup v = some t) : ⟨t, v⟩ ∈ saves temp placements := by
  have hmem := Assoc.mem_of_lookup h
  rw [savesFrom_eq] at hmem
  obtain ⟨w, hw, he⟩ := List.mem_map.mp hmem
  cases he
  exact List.mem_map_of_mem hw

/-- Once the values have been saved, each stands where it will be taken from. -/
theorem saves_source (hbelow : Below temp start values) (hfit : TempsFit temp (placementsFrom start values))
    (regs : Nat → α) {v : Held} (hv : v ∈ values) {k : Nat} (hk : k < v.category.slots) :
    (saves temp (placementsFrom start values)).foldl Placement.write regs
      (sourceOf temp (placementsFrom start values) v + k) = regs (v.reg + k) := by
  unfold sourceOf
  cases hlookup : (savesFrom [] [] temp (moved (placementsFrom start values))).lookup v with
  | none =>
      have hheld := hbelow.held v hv
      refine foldl_write_of_not_covers _ fun w hw hcovers => ?_
      have htemp := temp_le_of_mem_saves hfit hw
      have hle := hcovers.1
      simp only [Option.getD_none] at hle
      omega
  | some t => exact foldl_write_target (saves_harmless hbelow hfit) regs _ (mem_saves_of_lookup hlookup) k hk

theorem arrivals_harmless (hbelow : Below temp start values) (hfit : TempsFit temp (placementsFrom start values)) :
    Harmless (arrivals temp (placementsFrom start values)) := by
  have hapart : (moved (placementsFrom start values)).Pairwise fun w w' =>
      w.target + w.value.category.slots ≤ w'.target := (placementsFrom_apart start values).filter _
  have hspec := (savesFrom_spec (Eq.refl (savesFrom [] [] temp (moved (placementsFrom start values))))).2.2
  refine List.pairwise_map.mpr ((hapart.and hspec).imp_of_mem fun {w w'} hw hw' h => ⟨?_, ?_⟩)
  · unfold sourceOf
    cases hlookup : (savesFrom [] [] temp (moved (placementsFrom start values))).lookup w'.value with
    | none => simpa [destroys] using h.2 hlookup
    | some t =>
        have htemp : temp ≤ t := temp_le_of_mem_saves hfit (mem_saves_of_lookup hlookup)
        have hwithin := (placementsFrom_within (List.mem_of_mem_filter hw)).2
        have hroom := hbelow.room
        simp only [overlap, Option.getD_some, Bool.and_eq_false_iff, decide_eq_false_iff_not]
        omega
  · have hle := h.1
    simp only [overlap, Bool.and_eq_false_iff, decide_eq_false_iff_not]
    omega

theorem not_covers_of_stays {w w' : Placement} {k : Nat} (hw : w ∈ placementsFrom start values)
    (hstays : w.target = w.value.reg) (hw' : w' ∈ moved (placementsFrom start values))
    (hk : k < w.value.category.slots) : ¬w'.Covers (w.target + k) := by
  have hne : w ≠ w' := by
    rintro rfl
    simp [moved, hstays] at hw'
  let Apart (w w' : Placement) : Prop :=
    w.target + w.value.category.slots ≤ w'.target ∨ w'.target + w'.value.category.slots ≤ w.target
  have hsymm : Std.Symm Apart := ⟨fun _ _ => Or.symm⟩
  have hpairs : (placementsFrom start values).Pairwise Apart := (placementsFrom_apart start values).imp .inl
  have hapart : Apart w w' := hpairs.forall hw (List.mem_of_mem_filter hw') hne
  rcases hapart with h | h
  · exact fun ⟨hle, _⟩ => by omega
  · exact fun ⟨_, hlt⟩ => by omega

/-- Moving values below the temporaries: each is at its target afterwards, and what lies below the targets is as it was
before. -/
theorem movesFor_moves (pc : Nat) (hbelow : Below temp start values)
    (hfit : TempsFit temp (placementsFrom start values)) (regs : Nat → α) :
    ∃ regs', runMoves (movesFor pc temp (placementsFrom start values)) regs = some regs' ∧
      (∀ w ∈ placementsFrom start values, ∀ k < w.value.category.slots,
        regs' (w.target + k) = regs (w.value.reg + k)) ∧
      ∀ r < start, regs' r = regs r := by
  have hbefore {r : Nat} (hr : r < temp) :
      (saves temp (placementsFrom start values)).foldl Placement.write regs r = regs r := by
    refine foldl_write_of_not_covers _ fun w hw hcovers => ?_
    have htemp := temp_le_of_mem_saves hfit hw
    have hle := hcovers.1
    omega
  refine ⟨_, by rw [movesFor_eq, runMoves_map, List.foldl_append], fun w hw k hk => ?_, fun r hr => ?_⟩
  · by_cases hstays : w.target = w.value.reg
    · have hwithin := (placementsFrom_within hw).2
      have hroom := hbelow.room
      rw [foldl_write_of_not_covers, hbefore (by omega), hstays]
      intro w' hw'
      obtain ⟨x, hx, rfl⟩ := List.mem_map.mp hw'
      have hfree : ¬x.Covers (w.target + k) := not_covers_of_stays hw hstays hx hk
      exact hfree
    · have hmoved : w ∈ moved (placementsFrom start values) := List.mem_filter.mpr ⟨hw, by simpa using hstays⟩
      have harrives := foldl_write_target (arrivals_harmless hbelow hfit)
        ((saves temp (placementsFrom start values)).foldl Placement.write regs) _ (List.mem_map_of_mem hmoved) k hk
      rw [harrives]
      exact saves_source hbelow hfit regs (value_mem_of_moved hmoved) hk
  · have hlt : r < temp := by
      have hroom := hbelow.room
      omega
    rw [foldl_write_of_not_covers, hbefore hlt]
    intro w hw hcovers
    obtain ⟨x, hx, rfl⟩ := List.mem_map.mp hw
    have hfrom := (placementsFrom_within (List.mem_of_mem_filter hx)).1
    have hle : x.target ≤ r := hcovers.1
    omega

end

end JavaLift.ClassFile
