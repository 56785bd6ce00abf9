import JavaLift.DefUse.Chain
import Mathlib

namespace JavaLift.Chain

variable {uses : List Use} {count d id : Nat}

/-- A list only grows, and those of the definitions that reach a use get the use. -/
theorem addUse_lists (id : Nat) (ds : List Nat) (lists : Array (List Nat)) :
    let after := ds.foldl (fun lists d => lists.modify d (· ++ [id])) lists
    after.size = lists.size ∧ (∀ d : Nat, (lists[d]?).getD [] ⊆ (after[d]?).getD []) ∧
      ∀ d ∈ ds, d < lists.size → id ∈ (after[d]?).getD [] := by
  induction ds generalizing lists with
  | nil => exact ⟨rfl, fun _ => List.Subset.refl _, nofun⟩
  | cons e ds ih =>
      obtain ⟨hsize, hsub, hmem⟩ := ih (lists.modify e (· ++ [id]))
      rw [Array.size_modify] at hsize hmem
      have hfirst (d : Nat) : (lists[d]?).getD [] ⊆ ((lists.modify e (· ++ [id]))[d]?).getD [] := by
        rw [Array.getElem?_modify]
        split
        · rename_i hed
          subst hed
          cases lists[e]? <;> simp
        · exact List.Subset.refl _
      refine ⟨hsize, fun d => List.Subset.trans (hfirst d) (hsub d), fun d hd hlt => ?_⟩
      rcases List.mem_cons.mp hd with rfl | hd
      · refine hsub d ?_
        rw [Array.getElem?_modify, if_pos rfl]
        simp [hlt]
      · exact hmem d hd hlt

/-- A use is in the list of every definition that reaches it. -/
theorem mem_listUses {u : Use} (hu : uses[id]? = some u) (hd : d ∈ u.reaching) (hlt : d < count) :
    id ∈ ((listUses count uses)[d]?).getD [] := by
  unfold listUses
  suffices ∀ (l : List (Use × Nat)) (lists : Array (List Nat)), d < lists.size →
      ((u, id) ∈ l ∨ id ∈ (lists[d]?).getD []) →
        id ∈ ((l.foldl (fun (lists : Array (List Nat)) (x : Use × Nat) =>
          x.1.reaching.foldl (fun lists d => lists.modify d (· ++ [x.2])) lists) lists)[d]?).getD [] from
    this _ _ (by simpa using hlt) (.inl (List.mem_zipIdx_iff_getElem?.mpr hu))
  intro l
  induction l with
  | nil => exact fun lists _ h => h.resolve_left List.not_mem_nil
  | cons x l ih =>
      intro lists hlt h
      obtain ⟨hsize, hsub, hmem⟩ := addUse_lists x.2 x.1.reaching lists
      refine ih _ (hsize ▸ hlt) ?_
      rcases h with h | h
      · rcases List.mem_cons.mp h with rfl | h
        · exact .inr (hmem d hd hlt)
        · exact .inl h
      · exact .inr (hsub d h)

def Filed (uses : List Use) (table : Array (Array (List Nat))) : Prop :=
  ∀ (b : Nat) (row : Array (List Nat)), table[b]? = some row → ∀ (pos : Nat) (ids : List Nat), row[pos]? = some ids →
    ∀ id ∈ ids, ∃ u : Use, uses[id]? = some u ∧ u.block = b ∧ u.pos = pos

theorem Filed.add {table : Array (Array (List Nat))} (h : Filed uses table) {u : Use} (hu : uses[id]? = some u) :
    Filed uses (table.modify u.block fun row => row.modify u.pos (· ++ [id])) := by
  intro b row hrow pos ids hids i hi
  rw [Array.getElem?_modify] at hrow
  split at hrow
  · rename_i hb
    obtain ⟨before, hbefore, rfl⟩ := Option.map_eq_some_iff.mp hrow
    rw [Array.getElem?_modify] at hids
    split at hids
    · rename_i hpos
      obtain ⟨old, hold, rfl⟩ := Option.map_eq_some_iff.mp hids
      rcases List.mem_append.mp hi with hi | hi
      · exact h b before hbefore pos old hold i hi
      · obtain rfl := List.mem_singleton.mp hi
        exact ⟨u, hu, hb, hpos⟩
    · exact h b before hbefore pos ids hids i hi
  · exact h b row hrow pos ids hids i hi

theorem tableOfUses_filed (g : Graph) (uses : List Use) : Filed uses (tableOfUses g uses) := by
  unfold tableOfUses
  have hstart : Filed uses (g.blocks.map fun block => Array.replicate block.insns.length []) := by
    intro b row hrow pos ids hids id hid
    rw [Array.getElem?_map] at hrow
    obtain ⟨block, -, rfl⟩ := Option.map_eq_some_iff.mp hrow
    obtain ⟨hlt, rfl⟩ := Array.getElem?_eq_some_iff.mp hids
    simp at hid
  suffices ∀ l : List (Use × Nat), (∀ x ∈ l, uses[x.2]? = some x.1) → ∀ table, Filed uses table →
      Filed uses (l.foldl (fun (table : Array (Array (List Nat))) (x : Use × Nat) =>
        table.modify x.1.block fun row => row.modify x.1.pos (· ++ [x.2])) table) from
    this _ (fun x hx => List.mem_zipIdx_iff_getElem?.mp hx) _ hstart
  intro l
  induction l with
  | nil => exact fun _ _ h => h
  | cons x l ih =>
      intro hl table h
      rw [List.forall_mem_cons] at hl
      exact ih hl.2 _ (h.add hl.1)

/-- A place that an instruction has in the table of uses is one where it reads a register. -/
theorem useAt?_build {g : Graph} {entry : List Register} {block pos : Nat} {path : ArgPath}
    (h : (build g entry).useAt? block pos path = some id) :
    ∃ u, (build g entry).uses[id]? = some u ∧ u.block = block ∧ u.pos = pos ∧ u.path = path := by
  simp only [useAt?, Option.bind_eq_bind, Option.bind_eq_some_iff] at h
  obtain ⟨row, hrow, ids, hids, hfind⟩ := h
  obtain ⟨u, hu, hblock, hpos⟩ := tableOfUses_filed g (build g entry).uses.toList block row hrow pos ids hids id
    (List.mem_of_find?_eq_some hfind)
  rw [Array.getElem?_toList] at hu
  have hpath := List.find?_some hfind
  rw [hu] at hpath
  exact ⟨u, hu, hblock, hpos, by simpa using hpath⟩

theorem eq_of_isSingleUse {g : Graph} {entry : List Register} (h : (build g entry).isSingleUse d = true)
    (hd : d < (build g entry).defs.size) {u v : Use} {i j : Nat} (hu : (build g entry).uses[i]? = some u)
    (hv : (build g entry).uses[j]? = some v) (hdu : d ∈ u.reaching) (hdv : d ∈ v.reaching) : i = j := by
  have hlist {k : Nat} {w : Use} (hw : (build g entry).uses[k]? = some w) (hdw : d ∈ w.reaching) :
      k ∈ (build g entry).usesOfDef d :=
    mem_listUses (by rwa [Array.getElem?_toList]) hdw hd
  obtain ⟨k, hk⟩ := List.length_eq_one_iff.mp (by simpa [isSingleUse] using h)
  have hi := hlist hu hdu
  have hj := hlist hv hdv
  rw [hk, List.mem_singleton] at hi hj
  rw [hi, hj]

/-- The value of the instruction at `source` is the only one that reaches the register that another instruction of
the block reads at a path, and it is read nowhere else. -/
def Exclusive (c : Chain) (block source pos : Nat) (path : ArgPath) : Prop :=
  ∃ d id u, (c.defs[d]?).map Def.site = some (.insn block source) ∧ c.uses[id]? = some u ∧
    u.block = block ∧ u.pos = pos ∧ u.path = path ∧ u.reaching = [d] ∧
    ∀ (id' : Nat) (u' : Use), c.uses[id']? = some u' → d ∈ u'.reaching → id' = id

/-- A value that may move is read in the place it moves to, and nowhere else. -/
theorem exclusive_of_inlineSource? {g : Graph} {entry : List Register} {block pos source : Nat} {path : ArgPath}
    (h : (build g entry).inlineSource? block pos path = some source) :
    (build g entry).Exclusive block source pos path := by
  simp only [inlineSource?, Option.bind_eq_bind, Option.bind_eq_some_iff] at h
  obtain ⟨id, huse, h⟩ := h
  obtain ⟨u, hu, hblock, hpos, hpath⟩ := useAt?_build huse
  split at h
  · rename_i d hreaching
    obtain ⟨definition, hdef, h⟩ := Option.bind_eq_some_iff.mp h
    have hd : d < (build g entry).defs.size := (Array.getElem?_eq_some_iff.mp hdef).1
    have hone : u.reaching = [d] := by simpa [reaching, hu] using hreaching
    split at h
    · rename_i b p hsite
      split at h
      · rename_i hp
        obtain rfl : p = source := by simpa using h
        obtain ⟨rfl, -, hsingle⟩ := hp
        refine ⟨d, id, u, by rw [hdef, Option.map_some, hsite], hu, hblock, hpos, hpath, hone, fun id' u' hu' hd' => ?_⟩
        exact eq_of_isSingleUse hsingle hd hu' hu hd' (hone ▸ List.mem_singleton_self d)
      · cases h
    · cases h
  · cases h

end JavaLift.Chain
