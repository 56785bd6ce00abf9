import JavaLift.Proofs.Dalvik.Cells

namespace JavaLift.Dalvik

variable {a b : Assembler} {c : Cell} {cs cs' : List Cell} {d : Distances} {t : Nat → Int} {pos pc : Nat}

/-- The place of the distance to a table follows the first unit of the switch. -/
def PlacedFrom (pos : Nat) : List Cell → Prop
  | [] => True
  | c :: cs => (∀ pc, c = .table pc → pos = pc + 1) ∧ PlacedFrom (pos + c.size) cs

def NoTable (cs : List Cell) : Prop := ∀ pc, .table pc ∉ cs

theorem placedFrom_append : PlacedFrom pos (cs ++ cs') ↔ PlacedFrom pos cs ∧ PlacedFrom (pos + width cs) cs' := by
  induction cs generalizing pos with
  | nil => simp [PlacedFrom]
  | cons c cs ih => simp only [List.cons_append, PlacedFrom, ih, width_cons, and_assoc, Nat.add_assoc]

theorem NoTable.placedFrom (h : NoTable cs) : PlacedFrom pos cs := by
  induction cs generalizing pos with
  | nil => trivial
  | cons c cs ih =>
      refine ⟨fun pc hc => absurd (hc ▸ List.mem_cons_self) (h pc), ih fun pc hmem => ?_⟩
      exact h pc (List.mem_cons_of_mem c hmem)

theorem NoTable.append (h : NoTable cs) (h' : NoTable cs') : NoTable (cs ++ cs') := fun pc hmem =>
  (List.mem_append.mp hmem).elim (h pc) (h' pc)

theorem noTable_units (us : List Nat) : NoTable (us.map .unit) := by
  intro pc hmem
  obtain ⟨u, -, hu⟩ := List.mem_map.mp hmem
  cases hu

theorem PlacedFrom.le (h : PlacedFrom pos cs) (hmem : .table pc ∈ cs) : pos ≤ pc + 1 := by
  induction cs generalizing pos with
  | nil => cases hmem
  | cons c cs ih =>
      rcases List.mem_cons.mp hmem with rfl | hmem
      · exact (h.1 pc rfl).le
      · exact (Nat.le_add_right _ _).trans (ih h.2 hmem)

theorem spell_congr {d d' : Distances} (h : ∀ c ∈ cs, c.units d = c.units d') : spell d cs = spell d' cs := by
  induction cs with
  | nil => rfl
  | cons c cs ih =>
      rw [List.forall_mem_cons] at h
      rw [spell_cons, spell_cons, h.1, ih h.2]

theorem spell_update (j : Nat → String → Int) (t : Nat → Int) (hmem : .table pc ∉ cs) (x : Int) :
    spell ⟨j, Function.update t pc x⟩ cs = spell ⟨j, t⟩ cs := by
  refine spell_congr fun c hc => ?_
  cases c with
  | table pc' =>
      have hne : pc' ≠ pc := fun h => hmem (h ▸ hc)
      simp [Cell.units, hne]
  | unit | near | half | word => rfl

theorem spell_noTable (j : Nat → String → Int) (t t' : Nat → Int) (h : NoTable cs) :
    spell ⟨j, t⟩ cs = spell ⟨j, t'⟩ cs := by
  refine spell_congr fun c hc => ?_
  cases c with
  | table pc => exact absurd hc (h pc)
  | unit | near | half | word => rfl

theorem Grows.spells_at (h : Grows a b cs') (hnone : NoTable cs') (ha : Spells a cs t) : Spells b (cs ++ cs') t := by
  constructor
  · rw [h.units, ha.units, spell_append, List.map_append, blank, blank, spell_noTable _ 0 t hnone]
  · rw [h.fixups, ha.fixups, ha.pc, fixupsFrom_append, Nat.zero_add]

def setWord (us : List UInt16) (place : Nat) (x : Int) : List UInt16 :=
  (us.set place (UInt16.ofNat ((Assembler.wordUnits x).headD 0))).set (place + 1)
    (UInt16.ofNat ((Assembler.wordUnits x).getLastD 0))

theorem setWord_append (pre : List UInt16) (u v : UInt16) (rest : List UInt16) (x : Int) :
    setWord (pre ++ u :: v :: rest) pre.length x = pre ++ (Assembler.wordUnits x).map UInt16.ofNat ++ rest := by
  simp [setWord, Assembler.wordUnits]

theorem setWord_right (pre us : List UInt16) (i : Nat) (x : Int) :
    setWord (pre ++ us) (pre.length + i) x = pre ++ setWord us i x := by
  simp [setWord, Nat.add_assoc]

theorem setWord_spell (j : Nat → String → Int) (x : Int) (h : PlacedFrom pos cs) (hmem : .table pc ∈ cs) :
    setWord ((spell ⟨j, t⟩ cs).map UInt16.ofNat) (pc + 1 - pos) x
      = (spell ⟨j, Function.update t pc x⟩ cs).map UInt16.ofNat := by
  induction cs generalizing pos with
  | nil => cases hmem
  | cons c cs ih =>
      obtain ⟨hc, hrest⟩ := h
      by_cases heq : c = .table pc
      · subst heq
        have hpos : pos = pc + 1 := hc pc rfl
        have hnot : .table pc ∉ cs := fun hmem' => by
          have hle := hrest.le hmem'
          simp only [Cell.size] at hle
          omega
        rw [hpos, Nat.sub_self, spell_cons, spell_cons, spell_update j t hnot]
        simp [Cell.units, setWord, Assembler.wordUnits]
      · have hmem' : .table pc ∈ cs := (List.mem_cons.mp hmem).resolve_left (Ne.symm heq)
        have hle := hrest.le hmem'
        have hindex : pc + 1 - pos = ((c.units ⟨j, t⟩).map UInt16.ofNat).length + (pc + 1 - (pos + c.size)) := by
          rw [List.length_map, Cell.length_units]
          omega
        have hsame : c.units ⟨j, Function.update t pc x⟩ = c.units ⟨j, t⟩ := by
          have hone := spell_update j t (fun h : .table pc ∈ [c] => heq (List.mem_singleton.mp h).symm) x
          simpa using hone
        rw [spell_cons, spell_cons, List.map_append, List.map_append, hindex, setWord_right, ih hrest hmem', hsame]

/-- The units of a table before the distances. -/
def PendingSwitch.header (s : PendingSwitch) : List Nat :=
  match s.keys with
  | .packed first => [Code.packedIdent, s.targets.length] ++ Assembler.wordUnits first
  | .sparse keys => [Code.sparseIdent, s.targets.length] ++ keys.flatMap Assembler.wordUnits

def PendingSwitch.cells (s : PendingSwitch) : List Cell := s.header.map .unit ++ s.targets.map (.word s.pc)

/-- A table begins at an even position. -/
def padding (pos : Nat) : List Cell := if pos % 2 = 0 then [] else [.unit 0]

/-- The cells behind the instructions. -/
def tablesFrom (pos : Nat) : List PendingSwitch → List Cell
  | [] => []
  | s :: rest => padding pos ++ s.cells ++ tablesFrom (pos + width (padding pos) + width s.cells) rest

def tableStarts (pos : Nat) : List PendingSwitch → List (Nat × PendingSwitch)
  | [] => []
  | s :: rest =>
    (pos + width (padding pos), s) :: tableStarts (pos + width (padding pos) + width s.cells) rest

theorem noTable_padding (pos : Nat) : NoTable (padding pos) := by
  unfold padding
  split
  · nofun
  · exact noTable_units [0]

theorem PendingSwitch.noTable_cells (s : PendingSwitch) : NoTable s.cells := by
  refine (noTable_units _).append fun pc hmem => ?_
  obtain ⟨l, -, hl⟩ := List.mem_map.mp hmem
  cases hl

namespace Assembler

theorem targets_grow (a : Assembler) (pc : Nat) (targets : List String) :
    Grows a (targets.foldl (fun a t => (a.emitAll [0, 0]).jump pc a.pc t .word) a) (targets.map (.word pc)) := by
  induction targets generalizing a with
  | nil => exact .refl a
  | cons l targets ih =>
      have hgrows : Grows a (a.emitAll [0, 0]) ([] ++ [.unit 0, .unit 0]) := emitAll_grows a [0, 0]
      exact (jump_word hgrows pc l).trans (ih _)

/-- The distance of a switch is written into its place. -/
theorem spells_setWord {pc : Nat} (ha : Spells a cs t) (hp : PlacedFrom 0 cs) (hmem : .table pc ∈ cs) (x : Int)
    (hb : b.units.toList = setWord a.units.toList (pc + 1) x) (hfix : b.fixups = a.fixups) :
    Spells b cs (Function.update t pc x) := by
  refine ⟨?_, hfix.trans ha.fixups⟩
  rw [hb, ha.units]
  exact setWord_spell _ x hp hmem

theorem header_grows (a : Assembler) (s : PendingSwitch) :
    Grows a (match s.keys with
      | .packed first => a.emitAll ([Code.packedIdent, s.targets.length] ++ wordUnits first)
      | .sparse keys => a.emitAll ([Code.sparseIdent, s.targets.length] ++ keys.flatMap wordUnits))
      (s.header.map .unit) := by
  unfold PendingSwitch.header
  cases s.keys with
  | packed first => exact emitAll_grows a _
  | sparse keys => exact emitAll_grows a _

/-- A table is added at the end, and its distance is written behind the switch. -/
theorem layOut_spells {s : PendingSwitch} (ha : Spells a cs t) (hp : PlacedFrom 0 cs) (hmem : .table s.pc ∈ cs) :
    Spells (a.layOut s) (cs ++ (padding (width cs) ++ s.cells))
      (Function.update t s.pc ((width cs + width (padding (width cs)) : Nat) - s.pc : Int)) := by
  have hpad : Grows a (if a.pc % 2 = 0 then a else a.emit 0) (padding (width cs)) := by
    rw [← ha.pc, padding]
    split
    · exact .refl a
    · exact emit_grows a 0
  have hpc : (if a.pc % 2 = 0 then a else a.emit 0).pc = width cs + width (padding (width cs)) := by
    rw [hpad.pc, ha.pc]
  unfold layOut
  generalize (if a.pc % 2 = 0 then a else a.emit 0) = b at hpad hpc ⊢
  let x : Int := b.pc - s.pc
  let c : Assembler := { b with
    units := (b.units.setIfInBounds (s.pc + 1) (UInt16.ofNat ((wordUnits x).headD 0))).setIfInBounds (s.pc + 2)
      (UInt16.ofNat ((wordUnits x).getLastD 0)) }
  have hc : Spells c (cs ++ padding (width cs)) (Function.update t s.pc x) :=
    spells_setWord (hpad.spells_at (noTable_padding _) ha)
      (placedFrom_append.mpr ⟨hp, (noTable_padding _).placedFrom⟩) (List.mem_append_left _ hmem) x
      (by rw [Array.toList_setIfInBounds, Array.toList_setIfInBounds]; rfl) rfl
  have hall := ((header_grows c s).trans (targets_grow _ s.pc s.targets)).spells_at s.noTable_cells hc
  rw [List.append_assoc, show x = _ from congrArg (fun n : Nat => (n : Int) - s.pc) hpc] at hall
  exact hall

theorem labels_targets (a : Assembler) (pc : Nat) (targets : List String) :
    (targets.foldl (fun a t => (a.emitAll [0, 0]).jump pc a.pc t .word) a).labels = a.labels := by
  induction targets generalizing a with
  | nil => rfl
  | cons l targets ih => exact ih _

theorem labels_emitAll (a : Assembler) (us : List Nat) : (a.emitAll us).labels = a.labels := by
  induction us generalizing a with
  | nil => rfl
  | cons u us ih => exact ih _

theorem labels_layOut (a : Assembler) (s : PendingSwitch) : (a.layOut s).labels = a.labels := by
  unfold layOut
  have hpad : (if a.pc % 2 = 0 then a else a.emit 0).labels = a.labels := by split <;> rfl
  generalize (if a.pc % 2 = 0 then a else a.emit 0) = b at hpad ⊢
  rw [labels_targets]
  split <;> exact (labels_emitAll _ _).trans hpad

theorem layOutAll_spells (switches : List PendingSwitch) (ha : Spells a cs t) (hp : PlacedFrom 0 cs)
    (hmem : ∀ s ∈ switches, .table s.pc ∈ cs) (hdistinct : switches.Pairwise fun s s' => s.pc ≠ s'.pc) :
    ∃ t', Spells (switches.foldl layOut a) (cs ++ tablesFrom (width cs) switches) t' ∧
      (∀ p ∈ tableStarts (width cs) switches, t' p.2.pc = (p.1 : Int) - p.2.pc) ∧
      ∀ pc, (∀ s ∈ switches, s.pc ≠ pc) → t' pc = t pc := by
  induction switches generalizing a cs t with
  | nil => exact ⟨t, by simpa [tablesFrom] using ha, nofun, fun _ _ => rfl⟩
  | cons s rest ih =>
      rw [List.forall_mem_cons] at hmem
      rw [List.pairwise_cons] at hdistinct
      have hnone := (noTable_padding (width cs)).append s.noTable_cells
      have hwidth : width (cs ++ (padding (width cs) ++ s.cells))
          = width cs + width (padding (width cs)) + width s.cells := by
        rw [width_append, width_append, Nat.add_assoc]
      have hplaced := placedFrom_append.mpr ⟨hp, hnone.placedFrom⟩
      obtain ⟨t', hspells, hstarts, hother⟩ := ih (layOut_spells ha hp hmem.1) hplaced
        (fun s' hs' => List.mem_append_left _ (hmem.2 s' hs')) hdistinct.2
      rw [hwidth] at hspells hstarts
      refine ⟨t', ?_, ?_, ?_⟩
      · rw [List.append_assoc] at hspells
        exact hspells
      · rw [tableStarts, List.forall_mem_cons]
        refine ⟨?_, hstarts⟩
        rw [hother s.pc fun s' hs' h => hdistinct.1 s' hs' h.symm, Function.update_self]
      · intro pc hpc
        rw [List.forall_mem_cons] at hpc
        rw [hother pc hpc.2, Function.update_of_ne hpc.1.symm]

def place? (a : Assembler) (label : String) : Option Nat := a.labels.lookup label

def distance (a : Assembler) (pc : Nat) (label : String) : Int := ((a.place? label).getD 0 : Int) - pc

end Assembler

/-- A number has so few bits as a signed one. -/
def FitsIn (bits : Nat) (x : Int) : Prop := -(2 ^ (bits - 1)) ≤ x ∧ x < 2 ^ (bits - 1)

/-- The distance is the one to a label that is defined and near enough. -/
def Leads (place? : String → Option Nat) (d : Distances) (bits pc : Nat) (label : String) : Prop :=
  ∃ place, place? label = some place ∧ d.jump pc label = place - pc ∧ FitsIn bits (d.jump pc label)

def Cell.Reached (place? : String → Option Nat) (d : Distances) : Cell → Prop
  | .near _ pc label => Leads place? d 8 pc label
  | .half pc label => Leads place? d 16 pc label
  | .word pc label => Leads place? d 32 pc label
  | .unit _ | .table _ => True

namespace Assembler

theorem patch_ok {us us' : Array UInt16} {f : Fixup} (h : a.patch us f = .ok us') (t : Nat → Int) :
    Leads a.place? ⟨a.distance, t⟩ f.reach.bits f.pc f.label ∧
      us'.toList = match f.reach with
        | .byte => us.toList.set f.place
            (UInt16.ofNat (((us[f.place]?).getD 0).toNat % 256 + 256 * (a.distance f.pc f.label % 256).toNat))
        | .unit => us.toList.set f.place (UInt16.ofNat (a.distance f.pc f.label % 0x10000).toNat)
        | .word => setWord us.toList f.place (a.distance f.pc f.label) := by
  unfold patch resolve at h
  cases hlookup : a.labels.lookup f.label with
  | none =>
      rw [hlookup] at h
      cases h
  | some target =>
      have hdistance : a.distance f.pc f.label = target - f.pc := by simp [distance, place?, hlookup]
      rw [hlookup] at h
      obtain ⟨_, htarget, h⟩ := bind_eq_ok.mp h
      cases htarget
      simp only [← hdistance] at h
      split at h
      · cases h
      · rename_i hrange
        rw [not_or, not_or, Nat.one_shiftLeft, Nat.cast_pow, Nat.cast_ofNat] at hrange
        refine ⟨⟨target, hlookup, hdistance, not_lt.mp hrange.1, not_le.mp hrange.2.1⟩, ?_⟩
        cases hreach : f.reach with
        | byte =>
            rw [hreach] at h
            cases h
            exact Array.toList_setIfInBounds
        | unit =>
            rw [hreach] at h
            cases h
            exact Array.toList_setIfInBounds
        | word =>
            rw [hreach] at h
            cases h
            rw [Array.toList_setIfInBounds, Array.toList_setIfInBounds]
            rfl

theorem patch_cells {pre : List UInt16} {us us' : Array UInt16} (hsound : ∀ c ∈ cs, c.Sound)
    (hus : us.toList = pre ++ (spell (blank t) cs).map UInt16.ofNat)
    (h : (fixupsFrom pre.length cs).foldlM a.patch us = .ok us') :
    us'.toList = pre ++ (spell ⟨a.distance, t⟩ cs).map UInt16.ofNat ∧
      ∀ c ∈ cs, c.Reached a.place? ⟨a.distance, t⟩ := by
  induction cs generalizing pre us with
  | nil =>
      cases h
      exact ⟨hus, nofun⟩
  | cons c cs ih =>
      rw [List.forall_mem_cons] at hsound
      have hnext (us₁ : Array UInt16) (hus₁ : us₁.toList = (pre ++ (c.units ⟨a.distance, t⟩).map UInt16.ofNat)
          ++ (spell (blank t) cs).map UInt16.ofNat) (hreached : c.Reached a.place? ⟨a.distance, t⟩)
          (h₁ : (fixupsFrom (pre.length + c.size) cs).foldlM a.patch us₁ = .ok us') :
          us'.toList = pre ++ (spell ⟨a.distance, t⟩ (c :: cs)).map UInt16.ofNat ∧
            ∀ c' ∈ c :: cs, c'.Reached a.place? ⟨a.distance, t⟩ := by
        have hlen : pre.length + c.size = (pre ++ (c.units ⟨a.distance, t⟩).map UInt16.ofNat).length := by
          rw [List.length_append, List.length_map, Cell.length_units]
        rw [hlen] at h₁
        obtain ⟨hlist, hall⟩ := ih hsound.2 hus₁ h₁
        rw [List.forall_mem_cons, spell_cons, List.map_append, ← List.append_assoc]
        exact ⟨hlist, hreached, hall⟩
      rw [spell_cons, List.map_append, ← List.append_assoc] at hus
      cases c with
      | unit n => exact hnext us hus trivial h
      | table pc => exact hnext us hus trivial h
      | near opcode pc label =>
          obtain ⟨us₁, hpatch, h⟩ := bind_eq_ok.mp (List.foldlM_cons.symm.trans h)
          obtain ⟨hleads, hlist⟩ := patch_ok hpatch t
          have hopcode : opcode < 256 := hsound.1
          have hunit : ((us[pre.length]?).getD 0).toNat % 256 = opcode := by
            rw [← Array.getElem?_toList, hus, List.append_assoc, List.getElem?_append_right le_rfl, Nat.sub_self]
            simp [Cell.units, blank]
            omega
          refine hnext us₁ ?_ hleads h
          simp only [hunit] at hlist
          rw [hlist, hus]
          simp [Cell.units]
      | half pc label =>
          obtain ⟨us₁, hpatch, h⟩ := bind_eq_ok.mp (List.foldlM_cons.symm.trans h)
          obtain ⟨hleads, hlist⟩ := patch_ok hpatch t
          refine hnext us₁ ?_ hleads h
          rw [hlist, hus]
          simp [Cell.units]
      | word pc label =>
          obtain ⟨us₁, hpatch, h⟩ := bind_eq_ok.mp (List.foldlM_cons.symm.trans h)
          obtain ⟨hleads, hlist⟩ := patch_ok hpatch t
          refine hnext us₁ ?_ hleads h
          rw [hlist, hus, List.append_assoc]
          exact setWord_append pre _ _ _ _

end Assembler

end JavaLift.Dalvik
