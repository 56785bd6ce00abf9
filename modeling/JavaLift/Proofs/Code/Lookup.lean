import JavaLift.Code.Metadata
import Mathlib

namespace JavaLift

def MetadataEntry.Covers (e : MetadataEntry) (p : Nat) : Prop := e.start ≤ p ∧ p < e.stop

/-- Ranges that are not empty, in order, and apart from each other. -/
structure Apart (es : List MetadataEntry) : Prop where
  ordered : es.Pairwise fun a b => a.stop ≤ b.start
  nonempty : ∀ e ∈ es, e.start < e.stop

namespace Metadata

variable {m : Metadata} {e : MetadataEntry} {es : List MetadataEntry}

/-- Where `p` first holds and then fails, the halving ends at the first place at which it fails. -/
theorem bisect_spec (p : Nat → Bool) (base size : Nat) (hp : ∀ i j, i ≤ j → p j = true → p i = true) :
    base ≤ bisect p base size ∧ bisect p base size ≤ base + size ∧
      ∀ i, base ≤ i → i < base + size → (p i = true ↔ i < bisect p base size) := by
  fun_induction bisect p base size with
  | case1 base size hsize hone =>
      rw [Bool.and_eq_true, decide_eq_true_eq] at hone
      obtain ⟨rfl, hbase⟩ := hone
      refine ⟨by omega, by omega, fun i hlo hhi => ?_⟩
      obtain rfl : i = base := by omega
      simp [hbase]
  | case2 base size hsize hone =>
      refine ⟨by omega, by omega, fun i hlo hhi => ?_⟩
      obtain ⟨rfl, rfl⟩ : i = base ∧ size = 1 := by omega
      simpa using hone
  | case3 base size hsize hhalf ih =>
      obtain ⟨hlo, hhi, hmid⟩ := ih
      refine ⟨by omega, by omega, fun i hi hi' => ?_⟩
      by_cases hle : i < base + size / 2
      · exact iff_of_true (hp i _ hle.le hhalf) (by omega)
      · exact hmid i (by omega) (by omega)
  | case4 base size hsize hhalf ih =>
      obtain ⟨hlo, hhi, hmid⟩ := ih
      refine ⟨hlo, by omega, fun i hi hi' => ?_⟩
      by_cases hlt : i < base + (size - size / 2)
      · exact hmid i hi hlt
      · exact iff_of_false (fun h => hhalf (hp _ i (by omega) h)) (by omega)

theorem apart_cons : Apart (e :: es) ↔ e.start < e.stop ∧ (∀ a ∈ es, e.stop ≤ a.start) ∧ Apart es := by
  constructor
  · rintro ⟨ho, hn⟩
    rw [List.pairwise_cons] at ho
    rw [List.forall_mem_cons] at hn
    exact ⟨hn.1, ho.1, ho.2, hn.2⟩
  · rintro ⟨hlt, hle, ho, hn⟩
    exact ⟨List.pairwise_cons.mpr ⟨hle, ho⟩, List.forall_mem_cons.mpr ⟨hlt, hn⟩⟩

/-- To compare each range with the next one is enough. -/
theorem apart_iff_chained : Apart es ↔
    (∀ e ∈ es, e.start < e.stop) ∧ ∀ q ∈ es.zip es.tail, q.1.stop ≤ q.2.start := by
  induction es with
  | nil => exact ⟨fun h => ⟨h.nonempty, nofun⟩, fun h => ⟨.nil, h.1⟩⟩
  | cons e es ih =>
      rw [apart_cons, ih, List.forall_mem_cons]
      cases es with
      | nil => simp
      | cons a rest =>
          simp only [List.tail_cons, List.zip_cons_cons, List.forall_mem_cons]
          constructor
          · rintro ⟨he, ⟨hea, -⟩, hn, hz⟩
            exact ⟨⟨he, hn⟩, hea, hz⟩
          · rintro ⟨⟨he, ha, hn⟩, hea, hz⟩
            have hrest := (apart_cons.mp (ih.mpr ⟨List.forall_mem_cons.mpr ⟨ha, hn⟩, hz⟩)).2.1
            exact ⟨he, ⟨hea, fun b hb => by have := hrest b hb; omega⟩, ⟨ha, hn⟩, hz⟩

theorem isExact_iff : m.isExact = true ↔ Apart m.entries.toList := by
  rw [apart_iff_chained, isExact, Bool.and_eq_true, ← Array.all_toList, List.all_eq_true, List.all_eq_true]
  simp only [decide_eq_true_eq]

/-- In order, the first range that does not end before a position is the only one that can cover it. -/
theorem covers_iff_index (h : Apart es) {p k : Nat} (hk : ∀ i, i < es.length → ((es[i]?).any (·.stop ≤ p) ↔ i < k)) :
    e ∈ es ∧ e.Covers p ↔ es[k]? = some e ∧ e.start ≤ p := by
  constructor
  · rintro ⟨hmem, hstart, hstop⟩
    obtain ⟨i, hi, rfl⟩ := List.mem_iff_getElem.mp hmem
    have hki : k ≤ i := by
      apply Nat.le_of_not_lt
      intro hlt
      have hend := (hk i hi).mpr hlt
      simp only [List.getElem?_eq_getElem hi, Option.any_some, decide_eq_true_eq] at hend
      omega
    rcases hki.eq_or_lt with rfl | hki
    · exact ⟨List.getElem?_eq_getElem hi, hstart⟩
    · have horder := List.pairwise_iff_getElem.mp h.ordered k i (hki.trans hi) hi hki
      have hend := (hk k (hki.trans hi)).mp (by simp [hki.trans hi]; omega)
      exact absurd hend (Nat.lt_irrefl k)
  · rintro ⟨hget, hstart⟩
    obtain ⟨hlt, rfl⟩ := List.getElem?_eq_some_iff.mp hget
    refine ⟨List.getElem_mem hlt, hstart, Nat.lt_of_not_le fun hend => ?_⟩
    exact absurd ((hk k hlt).mp (by simp [hlt, hend])) (Nat.lt_irrefl k)

theorem at?_eq_some (h : Apart m.entries.toList) {p : Nat} :
    m.at? p = some e ↔ e ∈ m.entries.toList ∧ e.Covers p := by
  have hends (i j : Nat) (hij : i ≤ j) (hj : (m.entries.toList[j]?).any (·.stop ≤ p) = true) :
      (m.entries.toList[i]?).any (·.stop ≤ p) = true := by
    rcases hij.eq_or_lt with rfl | hij
    · exact hj
    · by_cases hlen : j < m.entries.toList.length
      · have horder := List.pairwise_iff_getElem.mp h.ordered i j (hij.trans hlen) hlen hij
        have hne := h.nonempty _ (List.getElem_mem hlen)
        rw [List.getElem?_eq_getElem hlen, Option.any_some, decide_eq_true_eq] at hj
        rw [List.getElem?_eq_getElem (hij.trans hlen), Option.any_some, decide_eq_true_eq]
        omega
      · rw [List.getElem?_eq_none (Nat.le_of_not_lt hlen)] at hj
        cases hj
  obtain ⟨-, -, hspec⟩ := bisect_spec _ 0 m.entries.toList.length hends
  rw [covers_iff_index h fun i hi => hspec i (Nat.zero_le i) (by omega), at?, Option.filter_eq_some_iff]
  simp only [Array.getElem?_toList, Array.length_toList, decide_eq_true_eq]

end Metadata

end JavaLift
