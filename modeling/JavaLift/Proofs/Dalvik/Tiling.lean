import JavaLift.Proofs.Insn.Printing

namespace JavaLift.Dalvik

variable {code : Code} {pool : Pool} {pc : Nat} {d : Decoded}

/-- The number of units that a line stands for: those of the item at its position, or the one that cannot be read. -/
def lineSize (code : Code) (pool : Pool) (pc : Nat) : Nat :=
  match decodeAt code pool pc with
  | .ok d => d.size
  | .error _ => 1

theorem lineSize_pos (code : Code) (pool : Pool) (pc : Nat) : 0 < lineSize code pool pc := by
  unfold lineSize
  split
  · exact Nat.add_pos_left Nat.one_pos _
  · exact Nat.one_pos

/-- Lines at the positions stand for the units from `pc` on, each line for those after the units of the line before it,
and the last one ends where the code does. -/
def Tiles (code : Code) (pool : Pool) : Nat → List Nat → Prop
  | pc, [] => pc = code.size
  | pc, p :: ps => p = pc ∧ pc < code.size ∧ Tiles code pool (pc + lineSize code pool pc) ps

theorem tiles_listFrom (h : pc ≤ code.size) : Tiles code pool pc ((listFrom code pool pc).map (·.1)) := by
  fun_induction listFrom code pool pc with
  | case1 pc hlt d hd ih =>
      have hinside := (decodeAt_fits code pool pc d hd).inside
      rw [Decoded.size, ← Nat.add_assoc] at hinside
      refine ⟨rfl, hlt, ?_⟩
      rw [lineSize, hd]
      simpa only [Decoded.size, Nat.add_assoc] using ih hinside
  | case2 pc hlt e he ih =>
      refine ⟨rfl, hlt, ?_⟩
      rw [lineSize, he]
      exact ih hlt
  | case3 pc hend => exact h.antisymm (not_lt.mp hend)

namespace Tiles

variable {ps : List Nat}

theorem le (h : Tiles code pool pc ps) : pc ≤ code.size ∧ ∀ p ∈ ps, pc ≤ p := by
  induction ps generalizing pc with
  | nil => exact ⟨h.le, nofun⟩
  | cons p ps ih =>
      obtain ⟨rfl, hlt, hrest⟩ := h
      refine ⟨hlt.le, List.forall_mem_cons.mpr ⟨le_rfl, fun q hq => ?_⟩⟩
      exact (Nat.le_add_right _ _).trans ((ih hrest).2 q hq)

theorem increasing (h : Tiles code pool pc ps) : ps.Pairwise (· < ·) := by
  induction ps generalizing pc with
  | nil => exact .nil
  | cons p ps ih =>
      obtain ⟨rfl, -, hrest⟩ := h
      refine List.pairwise_cons.mpr ⟨fun q hq => ?_, ih hrest⟩
      exact (Nat.lt_add_of_pos_right (lineSize_pos code pool p)).trans_le (hrest.le.2 q hq)

/-- The units of the lines, one line after the other, are all units from the position on. -/
theorem units (h : Tiles code pool pc ps) :
    ps.flatMap (fun p => List.range' p (lineSize code pool p)) = List.range' pc (code.size - pc) := by
  induction ps generalizing pc with
  | nil =>
      rw [show code.size - pc = 0 by rw [← show pc = code.size from h, Nat.sub_self]]
      rfl
  | cons p ps ih =>
      obtain ⟨rfl, -, hrest⟩ := h
      have hle := hrest.le.1
      rw [List.flatMap_cons, ih hrest, List.range'_append_1]
      congr 1
      omega

end Tiles

/-- Where the code is decoded without an error, the listing shows the items one after the other. -/
theorem listFrom_eq {done insns : List Insn} (h : decodeFrom code pool done pc = .ok insns) :
    listFrom code pool pc = (itemsFrom code pool pc).map fun p => (p.1, p.2.render) := by
  fun_induction decodeFrom code pool done pc with
  | case1 => cases h
  | case2 => cases h
  | case3 done pc hlt d hd done' hadd ih =>
      rw [listFrom, dif_pos hlt, itemsFrom, if_pos hlt, hd, List.map_cons, ← ih h]
  | case4 done pc hend => rw [listFrom, dif_neg hend, itemsFrom, if_neg hend, List.map_nil]

theorem length_items (items : List (Nat × Item)) :
    items.length = (items.filterMap (fun p => p.2.insn?.map (p.1, ·))).length
      + (items.filterMap (·.2.result?)).length + (items.filter (·.2.isTable)).length := by
  induction items with
  | nil => rfl
  | cons p items ih =>
      obtain ⟨pc, item⟩ := p
      cases item <;> simp [Item.insn?, Item.result?, Item.isTable, ih] <;> omega

theorem insnPositions_sublist (items : List (Nat × Item)) : (insnPositions items).Sublist (items.map (·.1)) := by
  induction items with
  | nil => exact .slnil
  | cons p items ih =>
      obtain ⟨pc, item⟩ := p
      cases item with
      | insn i => exact ih.cons_cons pc
      | moveResult | payload => exact ih.cons pc

theorem not_word_render (h : decodeAt code pool pc = .ok d) : ¬ ".word".toList <+: d.item.render.toList := by
  cases hitem : d.item with
  | insn i =>
      exact (Insn.undotted_render ((decodeAt_fits code pool pc d h).fresh i hitem)
        (decodeAt_unfolded code pool pc d h i hitem)).not_word
  | moveResult reg wide =>
      exact ((show Undotted "move-result r" by simp [Undotted]).append (toString reg)).not_word
  | payload =>
      change ¬ ".word".toList <+: ".payload".toList
      simp

/-- What a line says of its position: the instruction there, the register that takes a result, that a table begins, or
the unit itself where nothing can be read. -/
inductive Shows (code : Code) (pool : Pool) : Nat → String → Prop
  | insn {pc tail : Nat} {i : Insn} (h : decodeAt code pool pc = .ok ⟨.insn i, tail⟩) :
    Shows code pool pc (Text.offset pc ++ ": " ++ i.render)
  | result {pc reg tail : Nat} {wide : Bool} (h : decodeAt code pool pc = .ok ⟨.moveResult reg wide, tail⟩) :
    Shows code pool pc (Text.offset pc ++ ": move-result r" ++ toString reg)
  | table {pc tail : Nat} (h : decodeAt code pool pc = .ok ⟨.payload, tail⟩) :
    Shows code pool pc (Text.offset pc ++ ": .payload")
  | word {pc : Nat} {u : UInt16} {e : DecodeFault} (h : decodeAt code pool pc = .error e) (hu : code[pc]? = some u) :
    Shows code pool pc (Text.offset pc ++ ": .word " ++ Text.offset u.toNat)

theorem shows_item (h : decodeAt code pool pc = .ok d) :
    Shows code pool pc (Text.offset pc ++ ": " ++ d.item.render) := by
  obtain ⟨item, tail⟩ := d
  cases item with
  | insn i => exact .insn h
  | moveResult reg wide =>
      have hline := Shows.result h
      rwa [show ": move-result r" = ": " ++ "move-result r" from rfl, ← String.append_assoc, String.append_assoc] at hline
  | payload =>
      have hline := Shows.table h
      rwa [show ": .payload" = ": " ++ ".payload" from rfl, ← String.append_assoc] at hline

theorem shows_of_mem (pc : Nat) :
    ∀ p ∈ listFrom code pool pc, Shows code pool p.1 (Text.offset p.1 ++ ": " ++ p.2) := by
  fun_induction listFrom code pool pc with
  | case1 pc hlt d hd ih => exact List.forall_mem_cons.mpr ⟨shows_item hd, ih⟩
  | case2 pc hlt e he ih =>
      refine List.forall_mem_cons.mpr ⟨?_, ih⟩
      have hline := Shows.word he (Array.getElem?_eq_getElem hlt)
      rwa [show ": .word " = ": " ++ ".word " from rfl, ← String.append_assoc, String.append_assoc] at hline
  | case3 => nofun

theorem listing_shows (code : Code) (pool : Pool) :
    List.Forall₂ (Shows code pool) ((listFrom code pool 0).map (·.1)) (listing code pool) := by
  rw [listing, List.forall₂_map_left_iff, List.forall₂_map_right_iff, List.forall₂_same]
  exact shows_of_mem 0

/-- A position is written without a colon, so the text behind it can be told. -/
theorem line_inj {p q : Nat} {s t : String} (h : Text.offset p ++ ": " ++ s = Text.offset q ++ ": " ++ t) : s = t := by
  have hcolon (n : Nat) : ':' ∉ (Text.offset n).toList := fun hmem =>
    Text.forall_mem_offset (p := (· ≠ ':')) (by decide) (by decide) n _ hmem rfl
  have hlist : (Text.offset p).toList ++ ':' :: ' ' :: s.toList = (Text.offset q).toList ++ ':' :: ' ' :: t.toList := by
    simpa using congrArg String.toList h
  have hlength : (Text.offset p).toList.length = (Text.offset q).toList.length := by
    have hplace := congrArg (List.idxOf ':') hlist
    rwa [List.idxOf_append_of_notMem (hcolon p), List.idxOf_append_of_notMem (hcolon q), List.idxOf_cons_self,
      List.idxOf_cons_self] at hplace
  have hrest : ':' :: ' ' :: s.toList = ':' :: ' ' :: t.toList := (List.append_inj hlist hlength).2
  exact String.toList_inj.mp (by simpa using hrest)

theorem map_fst_listFrom {insns : List Insn} (h : decodeAll code pool = .ok insns) :
    (listFrom code pool 0).map (·.1) = (itemsFrom code pool 0).map (·.1) := by
  rw [listFrom_eq h, List.map_map]
  rfl

/-- Decoded code and its listing: both go through the same items. Each line is that of one item, and each item is an
instruction, the result of the instruction before it, or a table. -/
structure Swept (code : Code) (pool : Pool) (insns : List Insn) : Prop where
  steps : (itemsFrom code pool 0).foldlM (fun done p => addItem done p.1 p.2) [] = .ok insns.reverse
  lines : listFrom code pool 0 = (itemsFrom code pool 0).map fun p => (p.1, p.2.render)
  increasing : (insns.map (·.offset)).Pairwise (· < ·)
  read : ∀ p ∈ listFrom code pool 0, ¬ ".word".toList <+: p.2.toList
  printed : listing code pool = (itemsFrom code pool 0).map fun p => Text.offset p.1 ++ ": " ++ p.2.render
  wordless : ∀ line ∈ listing code pool, ∀ pos text, line ≠ Text.offset pos ++ ": .word" ++ text
  accounts : Accounts (itemsFrom code pool 0) insns
  count : (listing code pool).length = insns.length + (insns.filterMap Insn.joined?).length
    + ((itemsFrom code pool 0).filter (·.2.isTable)).length

theorem decodeAll_swept {insns : List Insn} (h : decodeAll code pool = .ok insns) : Swept code pool insns := by
  have hlines := listFrom_eq h
  have haccounts := decodeAll_accounts h
  have hread : ∀ p ∈ listFrom code pool 0, ¬ ".word".toList <+: p.2.toList := by
    rw [hlines]
    intro p hp
    obtain ⟨q, hq, rfl⟩ := List.mem_map.mp hp
    obtain ⟨d, hd, hitem⟩ := exists_of_mem_itemsFrom hq
    simpa only [hitem] using not_word_render hd
  refine ⟨foldlM_of_decodeFrom h, hlines, ?_, hread, ?_, ?_, haccounts, ?_⟩
  · rw [decodeAll_offsets h]
    refine List.Pairwise.sublist (insnPositions_sublist _) ?_
    rw [← map_fst_listFrom h]
    exact (tiles_listFrom (Nat.zero_le _)).increasing
  · rw [listing, hlines, List.map_map]
    rfl
  · rintro line hline pos text rfl
    obtain ⟨p, hp, hp'⟩ := List.mem_map.mp hline
    rw [show ": .word" = ": " ++ ".word" from rfl, ← String.append_assoc, String.append_assoc] at hp'
    have htext := line_inj hp'
    refine hread p hp ⟨text.toList, ?_⟩
    rw [htext, String.toList_append]
  · rw [listing, List.length_map, hlines, List.length_map, length_items, haccounts.read, haccounts.results,
      List.length_map]

/-- What can be read at a position of Dalvik code is at least one unit and lies within the code. The lines of a listing
stand for all units of the code, one line after the other from the first unit on, and each shows what is at its position.
Where the code is decoded without an error, they are the lines of what was decoded. -/
theorem listing_tiles (code : Code) (pool : Pool) :
    (∀ pc d, decodeAt code pool pc = .ok d → 1 ≤ d.size ∧ pc + d.size ≤ code.size ∧
      (d.item = .payload → code.payloadSize pc = .ok d.size)) ∧
    Tiles code pool 0 ((listFrom code pool 0).map (·.1)) ∧
    ((listFrom code pool 0).map (·.1)).Pairwise (· < ·) ∧
    List.Forall₂ (Shows code pool) ((listFrom code pool 0).map (·.1)) (listing code pool) ∧
    ((listFrom code pool 0).flatMap fun p => List.range' p.1 (lineSize code pool p.1)) = List.range code.size ∧
    ∀ insns, decodeAll code pool = .ok insns → Swept code pool insns := by
  have htiles : Tiles code pool 0 ((listFrom code pool 0).map (·.1)) := tiles_listFrom (Nat.zero_le _)
  refine ⟨fun pc d hd => ?_, htiles, htiles.increasing, listing_shows code pool, ?_, fun _ => decodeAll_swept⟩
  · have hfits := decodeAt_fits code pool pc d hd
    exact ⟨Nat.le_add_right 1 d.tail, hfits.inside, hfits.table⟩
  · have hunits := htiles.units
    rwa [List.flatMap_map, Nat.sub_zero, ← List.range_eq_range'] at hunits

/-- A call, its result, a return and a table without cases. -/
def nextUnits : Code := #[0x0071, 0x0000, 0x0000, 0x000a, 0x000e, 0x0200, 0x0000]

def nextPool : Pool := .tables ⟨#[], #[], #[], #[⟨"demo.Loop", "next", [], .int⟩]⟩

theorem listing_tiles_next : ∃ insns, decodeAll nextUnits nextPool = .ok insns ∧ Swept nextUnits nextPool insns ∧
    insns.map (·.offset) = [0, 4] ∧ (listing nextUnits nextPool).length = 4 := by
  have hdecode : ((decodeAll nextUnits nextPool).toOption.any fun insns =>
      insns.map (·.offset) == [0, 4] && (listing nextUnits nextPool).length == 4) = true := by
    decide +kernel
  obtain ⟨insns, hinsns, hdecode⟩ := exists_ok_of_any hdecode
  rw [Bool.and_eq_true, beq_iff_eq, beq_iff_eq] at hdecode
  exact ⟨insns, hinsns, (listing_tiles nextUnits nextPool).2.2.2.2.2 insns hinsns, hdecode⟩

end JavaLift.Dalvik
