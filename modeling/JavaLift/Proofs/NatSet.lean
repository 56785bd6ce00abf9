import JavaLift.NatSet
import Mathlib

namespace JavaLift.NatSet

theorem getElem?_widen (ws : List (BitVec 64)) (n i : Nat) : ((widen ws n)[i]?).getD 0 = (ws[i]?).getD 0 := by
  unfold widen
  by_cases h : i < ws.length
  · rw [List.getElem?_append_left h]
  · rw [List.getElem?_append_right (Nat.le_of_not_lt h), List.getElem?_eq_none (Nat.le_of_not_lt h),
      List.getElem?_replicate]
    split <;> rfl

theorem length_widen (ws : List (BitVec 64)) (n : Nat) : n ≤ (widen ws n).length := by
  simp only [widen, List.length_append, List.length_replicate]
  omega

@[simp] theorem contains_empty (i : Nat) : empty.contains i = false := by simp [empty, contains]

@[simp] theorem contains_emptyCollection (i : Nat) : (∅ : NatSet).contains i = false := contains_empty i

theorem contains_insert (s : NatSet) (i j : Nat) : (s.insert i).contains j = (s.contains j || i == j) := by
  have hlen := length_widen s.words (i / 64 + 1)
  simp only [insert, insertNew, contains, List.getElem?_modify]
  rw [← getElem?_widen s.words (i / 64 + 1) (j / 64)]
  generalize widen s.words (i / 64 + 1) = ws at hlen ⊢
  by_cases hw : i / 64 = j / 64
  · obtain ⟨w, hw'⟩ : ∃ w, ws[j / 64]? = some w := ⟨_, List.getElem?_eq_getElem (show j / 64 < _ by omega)⟩
    have hij : decide (i % 64 = j % 64) = (i == j) := by
      rw [beq_eq_decide, decide_eq_decide]
      omega
    simp only [hw', hw, if_true, Option.map_eq_map, Option.map_some, Option.getD_some, BitVec.getLsbD_or, bit,
      BitVec.getLsbD_twoPow, Nat.mod_lt _ (Nat.zero_lt_succ 63), decide_true, Bool.true_and, hij]
  · have hne : i ≠ j := fun h => hw (h ▸ rfl)
    simp [hw, hne]

theorem getElem?_combine (f : BitVec 64 → BitVec 64 → BitVec 64) (as bs : List (BitVec 64)) (i : Nat) :
    (combine f as bs)[i]? = (as[i]?).map fun a => (bs[i]?).elim a (f a) := by
  induction as generalizing bs i with
  | nil => simp [combine]
  | cons a as ih =>
      cases bs with
      | nil => cases h : (a :: as)[i]? <;> simp [combine, h]
      | cons b bs =>
          cases i with
          | zero => rfl
          | succ i => simpa [combine] using ih bs i

theorem contains_erase (s : NatSet) (i j : Nat) : (s.erase i).contains j = (s.contains j && i != j) := by
  simp only [erase, contains, List.getElem?_modify]
  by_cases hw : i / 64 = j / 64
  · have hij : (j % 64 = i % 64) ↔ i = j := by omega
    cases s.words[j / 64]? with
    | none => simp
    | some w => simp [hw, bit, Nat.mod_lt, hij, bne, beq_eq_decide]
  · have hne : i ≠ j := fun h => hw (h ▸ rfl)
    simp [hw, hne]

theorem contains_union (s t : NatSet) (i : Nat) : (s.union t).contains i = (s.contains i || t.contains i) := by
  have hlen := length_widen s.words t.words.length
  simp only [union, unionNew, contains, getElem?_combine]
  rw [← getElem?_widen s.words t.words.length (i / 64)]
  generalize widen s.words t.words.length = ws at hlen ⊢
  cases ht : t.words[i / 64]? with
  | none => simp
  | some v =>
      have hlt : i / 64 < ws.length := Nat.lt_of_lt_of_le (List.getElem?_eq_some_iff.mp ht).1 hlen
      simp [List.getElem?_eq_getElem hlt]

theorem contains_diff (s t : NatSet) (i : Nat) : (s.diff t).contains i = (s.contains i && !t.contains i) := by
  simp only [diff, contains, getElem?_combine]
  cases s.words[i / 64]? with
  | none => simp
  | some w =>
      cases t.words[i / 64]? with
      | none => simp
      | some v => simp [Nat.mod_lt]

theorem mem_bitsOf {w : BitVec 64} {i : Nat} : i ∈ bitsOf w ↔ w.getLsbD i = true := by
  simp only [bitsOf, List.mem_filter, List.mem_range, and_iff_right_iff_imp]
  exact BitVec.lt_of_getLsbD

theorem mem_membersFrom {ws : List (BitVec 64)} {start n : Nat} :
    n ∈ membersFrom start ws ↔ ∃ (k : Nat) (w : BitVec 64) (i : Nat), ws[k]? = some w ∧ w.getLsbD i = true ∧
      n = 64 * (start + k) + i := by
  induction ws generalizing start with
  | nil => simp [membersFrom]
  | cons w ws ih =>
      have hfirst : (n ∈ if w == 0 then [] else (bitsOf w).map (64 * start + ·)) ↔
          ∃ i, w.getLsbD i = true ∧ n = 64 * start + i := by
        split
        · rename_i hw
          obtain rfl : w = 0 := by simpa using hw
          simp
        · rw [List.mem_map]
          exact exists_congr fun i => and_congr mem_bitsOf eq_comm
      rw [membersFrom, List.mem_append, hfirst, ih]
      constructor
      · rintro (⟨i, hi, hn⟩ | ⟨k, v, i, hk, hi, hn⟩)
        · exact ⟨0, w, i, rfl, hi, hn⟩
        · exact ⟨k + 1, v, i, hk, hi, by omega⟩
      · rintro ⟨k, v, i, hk, hi, hn⟩
        cases k with
        | zero =>
            cases hk
            exact .inl ⟨i, hi, hn⟩
        | succ k => exact .inr ⟨k, v, i, hk, hi, by omega⟩

theorem mem_toList {s : NatSet} {n : Nat} : n ∈ s.toList ↔ s.contains n = true := by
  rw [toList, mem_membersFrom, contains]
  constructor
  · rintro ⟨k, w, i, hk, hi, rfl⟩
    have hlt := BitVec.lt_of_getLsbD hi
    rw [show (64 * (0 + k) + i) / 64 = k by omega, show (64 * (0 + k) + i) % 64 = i by omega, hk]
    exact hi
  · intro h
    cases hw : s.words[n / 64]? with
    | none => simp [hw] at h
    | some w => exact ⟨n / 64, w, n % 64, hw, by simpa [hw] using h, by omega⟩

theorem contains_ofList {xs : List Nat} {i : Nat} : (ofList xs).contains i = true ↔ i ∈ xs := by
  suffices ∀ s : NatSet, (xs.foldl insert s).contains i = true ↔ s.contains i = true ∨ i ∈ xs by
    simpa [ofList] using this empty
  induction xs with
  | nil => simp
  | cons x xs ih =>
      intro s
      rw [List.foldl_cons, ih, contains_insert, List.mem_cons, Bool.or_eq_true, beq_iff_eq, or_assoc, eq_comm (a := x)]

theorem getElem?_rdropWhile (ws : List (BitVec 64)) (i : Nat) :
    ((ws.rdropWhile (· == 0))[i]?).getD 0 = (ws[i]?).getD 0 := by
  induction ws using List.reverseRecOn with
  | nil => rfl
  | append_singleton ws w ih =>
      rw [List.rdropWhile_concat]
      split
      · rename_i hw
        obtain rfl : w = 0 := by simpa using hw
        rw [ih, List.getElem?_append]
        split
        · rfl
        · rw [List.getElem?_eq_none (by omega), List.getElem?_singleton]
          split <;> rfl
      · rfl

theorem length_le_of_getD_eq {as bs : List (BitVec 64)} (h : ∀ i : Nat, (as[i]?).getD 0 = (bs[i]?).getD 0)
    (hbs : ∀ hne : bs ≠ [], bs.getLast hne ≠ 0) : bs.length ≤ as.length := by
  by_contra hlt
  have hne : bs ≠ [] := by
    rintro rfl
    simp at hlt
  apply hbs hne
  rw [List.getLast_eq_getElem]
  have hlast := h (bs.length - 1)
  rw [List.getElem?_eq_none (by omega), List.getElem?_eq_getElem (by omega)] at hlast
  exact hlast.symm

theorem rdropWhile_eq {as bs : List (BitVec 64)} (h : ∀ i : Nat, (as[i]?).getD 0 = (bs[i]?).getD 0) :
    as.rdropWhile (· == 0) = bs.rdropWhile (· == 0) := by
  have hdrop (i : Nat) : ((as.rdropWhile (· == 0))[i]?).getD 0 = ((bs.rdropWhile (· == 0))[i]?).getD 0 := by
    rw [getElem?_rdropWhile, getElem?_rdropWhile, h]
  have hlast (ws : List (BitVec 64)) (hne : ws.rdropWhile (· == 0) ≠ []) :
      (ws.rdropWhile (· == 0)).getLast hne ≠ 0 := by
    simpa using List.rdropWhile_last_not (· == 0) ws hne
  have hle := length_le_of_getD_eq hdrop (hlast bs)
  have hge := length_le_of_getD_eq (fun i => (hdrop i).symm) (hlast as)
  refine List.ext_getElem (Nat.le_antisymm hge hle) fun i hi hi' => ?_
  have hi'' := hdrop i
  rwa [List.getElem?_eq_getElem hi, List.getElem?_eq_getElem hi'] at hi''

/-- Two sets are equal if they have the same members, whatever words of zeros they end in. -/
theorem beq_iff {s t : NatSet} : (s == t) = true ↔ ∀ i, s.contains i = t.contains i := by
  have hword (u : NatSet) (i : Nat) : (u.significant[i]?).getD 0 = (u.words[i]?).getD 0 :=
    getElem?_rdropWhile u.words i
  change (s.significant == t.significant) = true ↔ _
  rw [beq_iff_eq]
  constructor
  · intro h i
    rw [contains, contains, ← hword s, ← hword t, h]
  · intro h
    apply rdropWhile_eq
    intro i
    apply BitVec.eq_of_getLsbD_eq
    intro j hj
    have hij := h (64 * i + j)
    rwa [contains, contains, show (64 * i + j) / 64 = i by omega, show (64 * i + j) % 64 = j by omega] at hij

end JavaLift.NatSet
