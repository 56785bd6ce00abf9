import JavaLift.Proofs.NatSet

namespace JavaLift.NatSet

variable {s t : NatSet} {S T : Finset Nat}

theorem contains_word (s : NatSet) (k : Nat) {j : Nat} (hj : j < 64) :
    s.contains (64 * k + j) = ((s.words[k]?).getD 0).getLsbD j := by
  rw [contains, show (64 * k + j) / 64 = k by omega, show (64 * k + j) % 64 = j by omega]

@[simp] theorem contains_withCapacity (n i : Nat) : (withCapacity n).contains i = false := by
  rw [contains, withCapacity, List.getElem?_replicate]
  split <;> simp

theorem insertNew_snd (s : NatSet) (i : Nat) : (s.insertNew i).2 = !s.contains i := by
  have hlt : i % 64 < 64 := Nat.mod_lt i (by decide)
  have hbit : (BitVec.twoPow 64 (i % 64)).getLsbD (i % 64) = true := by
    rw [BitVec.getLsbD_twoPow, decide_eq_true hlt, decide_eq_true rfl, Bool.and_self]
  have hne : BitVec.twoPow 64 (i % 64) ≠ 0 := by
    intro h
    rw [h] at hbit
    simp at hbit
  simp only [insertNew, contains, getElem?_widen, bit, BitVec.and_twoPow]
  split
  · rename_i hold
    rw [hold, beq_eq_false_iff_ne.mpr hne, Bool.not_true]
  · rename_i hnew
    rw [Bool.eq_false_of_not_eq_true hnew, Bool.not_false]
    rfl

theorem contains_iff {i : Nat} : s.contains i = true ↔ ∃ w, s.words[i / 64]? = some w ∧ w.getLsbD (i % 64) = true := by
  rw [contains]
  cases s.words[i / 64]? <;> simp

theorem ne_zero_iff {w : BitVec 64} : w ≠ 0 ↔ ∃ j, w.getLsbD j = true := by
  rw [← not_iff_not, not_not, not_exists]
  constructor
  · rintro rfl j
    rw [BitVec.ofNat_eq_ofNat, BitVec.getLsbD_zero]
    exact Bool.false_ne_true
  · intro hall
    apply BitVec.eq_of_getLsbD_eq
    intro j _
    rw [Bool.eq_false_of_not_eq_true (hall j), BitVec.ofNat_eq_ofNat, BitVec.getLsbD_zero]

theorem and_ne_zero_iff {a b : BitVec 64} : a &&& b ≠ 0 ↔ ∃ j, a.getLsbD j = true ∧ b.getLsbD j = true := by
  simp only [ne_zero_iff, BitVec.getLsbD_and, Bool.and_eq_true]

theorem or_ne_iff {a b : BitVec 64} : a ||| b ≠ a ↔ ∃ j, b.getLsbD j = true ∧ a.getLsbD j = false := by
  constructor
  · intro h
    by_contra! hall
    apply h
    apply BitVec.eq_of_getLsbD_eq
    intro j _
    rw [BitVec.getLsbD_or]
    cases hb : b.getLsbD j with
    | false => exact Bool.or_false _
    | true => simpa using hall j hb
  · rintro ⟨j, hb, ha⟩ h
    have hbit := congrArg (BitVec.getLsbD · j) h
    simp only [BitVec.getLsbD_or, ha, hb, Bool.or_true] at hbit
    cases hbit

theorem mem_zip_iff {α β : Type} {as : List α} {bs : List β} {a : α} {b : β} :
    (a, b) ∈ as.zip bs ↔ ∃ k : Nat, as[k]? = some a ∧ bs[k]? = some b := by
  simp only [List.mem_iff_getElem?, List.getElem?_zip_eq_some]

theorem isEmpty_iff : s.isEmpty = true ↔ ∀ i, s.contains i = false := by
  rw [isEmpty, List.all_eq_true]
  constructor
  · intro h i
    rw [contains]
    cases hw : s.words[i / 64]? with
    | none => simp
    | some w =>
        obtain rfl : w = 0 := by simpa using h w (List.mem_of_getElem? hw)
        simp
  · intro h w hw
    obtain ⟨k, hk⟩ := List.mem_iff_getElem?.mp hw
    rw [beq_iff_eq]
    by_contra hne
    obtain ⟨j, hj⟩ := ne_zero_iff.mp hne
    have hbit := h (64 * k + j)
    rw [contains_word s k (BitVec.lt_of_getLsbD hj), hk, Option.getD_some, hj] at hbit
    cases hbit

theorem intersects_iff : s.intersects t = true ↔ ∃ i, s.contains i = true ∧ t.contains i = true := by
  simp only [intersects, List.any_eq_true, Prod.exists, bne_iff_ne, mem_zip_iff, and_ne_zero_iff]
  constructor
  · rintro ⟨a, b, ⟨k, ha, hb⟩, j, hja, hjb⟩
    have hj : j < 64 := BitVec.lt_of_getLsbD hja
    refine ⟨64 * k + j, ?_, ?_⟩
    · rw [contains_word s k hj, ha]
      exact hja
    · rw [contains_word t k hj, hb]
      exact hjb
  · rintro ⟨i, hs, ht⟩
    obtain ⟨a, ha, hia⟩ := contains_iff.mp hs
    obtain ⟨b, hb, hib⟩ := contains_iff.mp ht
    exact ⟨a, b, ⟨i / 64, ha, hb⟩, i % 64, hia, hib⟩

theorem unionNew_snd : (s.unionNew t).2 = true ↔ ∃ i, t.contains i = true ∧ s.contains i = false := by
  have hlen := length_widen s.words t.words.length
  have hword := getElem?_widen s.words t.words.length
  simp only [unionNew, List.any_eq_true, Prod.exists, bne_iff_ne, mem_zip_iff, or_ne_iff]
  generalize widen s.words t.words.length = ws at hlen hword
  constructor
  · rintro ⟨a, b, ⟨k, ha, hb⟩, j, hbit, hfree⟩
    have hj : j < 64 := BitVec.lt_of_getLsbD hbit
    refine ⟨64 * k + j, ?_, ?_⟩
    · rw [contains_word t k hj, hb]
      exact hbit
    · rw [contains_word s k hj, ← hword, ha]
      exact hfree
  · rintro ⟨i, hi, hfree⟩
    obtain ⟨b, hb, hbit⟩ := contains_iff.mp hi
    have hlt : i / 64 < ws.length := Nat.lt_of_lt_of_le (List.getElem?_eq_some_iff.mp hb).1 hlen
    rw [contains, ← hword, List.getElem?_eq_getElem hlt] at hfree
    exact ⟨ws[i / 64], b, ⟨i / 64, List.getElem?_eq_getElem hlt, hb⟩, i % 64, hbit, hfree⟩

theorem le_of_mem_membersFrom {ws : List (BitVec 64)} {start n : Nat} (h : n ∈ membersFrom start ws) :
    64 * start ≤ n := by
  obtain ⟨k, w, i, -, -, rfl⟩ := mem_membersFrom.mp h
  omega

theorem bitsOf_pairwise (w : BitVec 64) : (bitsOf w).Pairwise (· < ·) := List.pairwise_lt_range.filter _

theorem membersFrom_pairwise (start : Nat) (ws : List (BitVec 64)) : (membersFrom start ws).Pairwise (· < ·) := by
  induction ws generalizing start with
  | nil => exact .nil
  | cons w ws ih =>
      rw [membersFrom, List.pairwise_append]
      refine ⟨?_, ih (start + 1), ?_⟩
      · split
        · exact .nil
        · rw [List.pairwise_map]
          exact (bitsOf_pairwise w).imp fun h => Nat.add_lt_add_left h _
      · intro m hm n hn
        have hle := le_of_mem_membersFrom hn
        split at hm
        · cases hm
        · obtain ⟨i, hi, rfl⟩ := List.mem_map.mp hm
          have hlt := BitVec.lt_of_getLsbD (mem_bitsOf.mp hi)
          omega

theorem toList_pairwise (s : NatSet) : s.toList.Pairwise (· < ·) := membersFrom_pairwise 0 s.words

theorem bitsOf_zero : bitsOf 0 = [] := by
  rw [bitsOf, List.filter_eq_nil_iff]
  simp

theorem length_membersFrom (start : Nat) (ws : List (BitVec 64)) :
    (membersFrom start ws).length = ws.foldr (fun w n => (bitsOf w).length + n) 0 := by
  induction ws generalizing start with
  | nil => rfl
  | cons w ws ih =>
      rw [membersFrom, List.length_append, ih, List.foldr_cons]
      congr 1
      split
      · rename_i hw
        obtain rfl : w = 0 := by simpa using hw
        rw [bitsOf_zero]
      · rw [List.length_map]

theorem length_toList (s : NatSet) : s.toList.length = s.size := length_membersFrom 0 s.words

theorem hashed_eq_iff : s.hashed = t.hashed ↔ (s == t) = true := by
  change _ ↔ (s.significant == t.significant) = true
  rw [beq_iff_eq, hashed, hashed, Prod.mk.injEq]
  exact ⟨fun h => h.2, fun h => ⟨by rw [h], h⟩⟩

/-- The set of bits has the members of a finite set of numbers. -/
def Holds (s : NatSet) (S : Finset Nat) : Prop := ∀ i, s.contains i = true ↔ i ∈ S

namespace Holds

theorem withCapacity (n : Nat) : Holds (withCapacity n) ∅ := fun i => by simp

theorem ofList (xs : List Nat) : Holds (ofList xs) xs.toFinset := fun i => by
  rw [contains_ofList, List.mem_toFinset]

theorem insert (h : s.Holds S) (i : Nat) : (s.insert i).Holds (Insert.insert i S) := fun j => by
  rw [contains_insert, Bool.or_eq_true, beq_iff_eq, h j, Finset.mem_insert, or_comm, eq_comm]

theorem erase (h : s.Holds S) (i : Nat) : (s.erase i).Holds (S.erase i) := fun j => by
  rw [contains_erase, Bool.and_eq_true, bne_iff_ne, h j, Finset.mem_erase, and_comm, ne_comm]

theorem union (h : s.Holds S) (h' : t.Holds T) : (s.union t).Holds (S ∪ T) := fun i => by
  rw [contains_union, Bool.or_eq_true, h i, h' i, Finset.mem_union]

theorem diff (h : s.Holds S) (h' : t.Holds T) : (s.diff t).Holds (S \ T) := fun i => by
  rw [contains_diff, Bool.and_eq_true, Bool.not_eq_true', ← Bool.not_eq_true, h i, h' i, Finset.mem_sdiff]

theorem not_mem_iff (h : s.Holds S) (i : Nat) : s.contains i = false ↔ i ∉ S := by
  rw [← Bool.not_eq_true, h i]

theorem eq_iff (h : s.Holds S) (h' : t.Holds T) : (∀ i, s.contains i = t.contains i) ↔ S = T := by
  rw [Finset.ext_iff]
  apply forall_congr'
  intro i
  rw [Bool.eq_iff_iff, h i, h' i]

theorem insertNew_snd (h : s.Holds S) (i : Nat) : (s.insertNew i).2 = decide (Insert.insert i S ≠ S) := by
  rw [NatSet.insertNew_snd, Bool.eq_iff_iff, Bool.not_eq_true', h.not_mem_iff, decide_eq_true_iff, Ne,
    Finset.insert_eq_self]

theorem unionNew_snd (h : s.Holds S) (h' : t.Holds T) : (s.unionNew t).2 = decide (S ∪ T ≠ S) := by
  rw [Bool.eq_iff_iff, NatSet.unionNew_snd, decide_eq_true_iff, Ne, Finset.union_eq_left, Finset.not_subset]
  apply exists_congr
  intro i
  rw [h' i, h.not_mem_iff]

end Holds

/-- Whatever is asked of the set of bits has the answer that the set of numbers gives. -/
structure Agrees (s : NatSet) (S : Finset Nat) : Prop where
  contains : ∀ i, s.contains i = true ↔ i ∈ S
  isEmpty : s.isEmpty = true ↔ S = ∅
  size : s.size = S.card
  listed : s.toList.toFinset = S
  increasing : s.toList.Pairwise (· < ·)

structure AgreeTogether (s t : NatSet) (S T : Finset Nat) : Prop where
  intersects : s.intersects t = true ↔ (S ∩ T).Nonempty
  beq : (s == t) = true ↔ S = T
  hashed : s.hashed = t.hashed ↔ S = T

theorem Holds.agrees (h : s.Holds S) : s.Agrees S := by
  have hlisted : s.toList.toFinset = S := by
    ext i
    rw [List.mem_toFinset, mem_toList, h i]
  refine ⟨h, ?_, ?_, hlisted, toList_pairwise s⟩
  · rw [isEmpty_iff, Finset.eq_empty_iff_forall_notMem]
    exact forall_congr' h.not_mem_iff
  · rw [← length_toList, ← hlisted, List.toFinset_card_of_nodup (toList_pairwise s).nodup]

theorem Holds.agreeTogether (h : s.Holds S) (h' : t.Holds T) : AgreeTogether s t S T := by
  have hbeq : (s == t) = true ↔ S = T := beq_iff.trans (h.eq_iff h')
  refine ⟨?_, hbeq, hashed_eq_iff.trans hbeq⟩
  rw [intersects_iff]
  apply exists_congr
  intro i
  rw [h i, h' i, Finset.mem_inter]

inductive Act where
  | create (capacity : Nat)
  | collect (xs : List Nat)
  | copy (other : Nat)
  | insert (i : Nat)
  | erase (i : Nat)
  | unite (other : Nat)
  | subtract (other : Nat)

namespace Act

def run (sets : Nat → NatSet) (s : NatSet) : Act → NatSet
  | .create capacity => withCapacity capacity
  | .collect xs => ofList xs
  | .copy other => sets other
  | .insert i => s.insert i
  | .erase i => s.erase i
  | .unite other => s.union (sets other)
  | .subtract other => s.diff (sets other)

def report (sets : Nat → NatSet) (s : NatSet) : Act → Option Bool
  | .insert i => some (s.insertNew i).2
  | .unite other => some (s.unionNew (sets other)).2
  | _ => none

def means (sets : Nat → Finset Nat) (S : Finset Nat) : Act → Finset Nat
  | .create _ => ∅
  | .collect xs => xs.toFinset
  | .copy other => sets other
  | .insert i => Insert.insert i S
  | .erase i => S.erase i
  | .unite other => S ∪ sets other
  | .subtract other => S \ sets other

def notes (sets : Nat → Finset Nat) (S : Finset Nat) (act : Act) : Option Bool :=
  match act with
  | .insert _ | .unite _ => some (decide (act.means sets S ≠ S))
  | _ => none

variable {sets : Nat → NatSet} {Sets : Nat → Finset Nat}

theorem run_holds (hsets : ∀ k, (sets k).Holds (Sets k)) (h : s.Holds S) (act : Act) :
    (act.run sets s).Holds (act.means Sets S) := by
  cases act with
  | create capacity => exact .withCapacity capacity
  | collect xs => exact .ofList xs
  | copy other => exact hsets other
  | insert i => exact h.insert i
  | erase i => exact h.erase i
  | unite other => exact h.union (hsets other)
  | subtract other => exact h.diff (hsets other)

theorem report_eq (hsets : ∀ k, (sets k).Holds (Sets k)) (h : s.Holds S) (act : Act) :
    act.report sets s = act.notes Sets S := by
  cases act with
  | insert i => exact congrArg some (h.insertNew_snd i)
  | unite other => exact congrArg some (h.unionNew_snd (hsets other))
  | create | collect | copy | erase | subtract => rfl

end Act

def runAt (sets : Nat → NatSet) (step : Nat × Act) : Nat → NatSet :=
  Function.update sets step.1 (step.2.run sets (sets step.1))

def meansAt (sets : Nat → Finset Nat) (step : Nat × Act) : Nat → Finset Nat :=
  Function.update sets step.1 (step.2.means sets (sets step.1))

/-- Acts one after the other. All sets are empty at first. -/
def runAll (steps : List (Nat × Act)) : Nat → NatSet := steps.foldl runAt fun _ => empty

def meansAll (steps : List (Nat × Act)) : Nat → Finset Nat := steps.foldl meansAt fun _ => ∅

theorem runAt_holds {sets : Nat → NatSet} {Sets : Nat → Finset Nat} (h : ∀ k, (sets k).Holds (Sets k))
    (step : Nat × Act) (k : Nat) : (runAt sets step k).Holds (meansAt Sets step k) := by
  unfold runAt meansAt
  by_cases hk : k = step.1
  · subst hk
    rw [Function.update_self, Function.update_self]
    exact step.2.run_holds h (h step.1)
  · rw [Function.update_of_ne hk, Function.update_of_ne hk]
    exact h k

theorem runAll_holds (steps : List (Nat × Act)) (k : Nat) : (runAll steps k).Holds (meansAll steps k) := by
  suffices ∀ (sets : Nat → NatSet) (Sets : Nat → Finset Nat), (∀ k, (sets k).Holds (Sets k)) →
      (steps.foldl runAt sets k).Holds (steps.foldl meansAt Sets k) from this _ _ fun _ => .withCapacity 0
  induction steps with
  | nil =>
      intro sets Sets h
      exact h k
  | cons step steps ih =>
      intro sets Sets h
      apply ih
      exact runAt_holds h step

/-- After any acts on any number of sets, all of them answer like sets of numbers, and so do the next acts. -/
theorem runAll_agrees (steps : List (Nat × Act)) :
    (∀ k, (runAll steps k).Agrees (meansAll steps k)) ∧
    (∀ k l, AgreeTogether (runAll steps k) (runAll steps l) (meansAll steps k) (meansAll steps l)) ∧
    ∀ k (act : Act), act.report (runAll steps) (runAll steps k) = act.notes (meansAll steps) (meansAll steps k) := by
  have hholds := runAll_holds steps
  refine ⟨fun k => (hholds k).agrees, fun k l => (hholds k).agreeTogether (hholds l), fun k act => ?_⟩
  exact act.report_eq hholds (hholds k)

end JavaLift.NatSet
