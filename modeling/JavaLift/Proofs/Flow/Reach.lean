import JavaLift.Flow.Digraph
import Mathlib

namespace JavaLift.Digraph

/-- A way leads to a node from one of the roots, past no blocked node. -/
inductive Reaches (g : Digraph) (blocked : Nat → Bool) (roots : List Nat) : Nat → Prop where
  | root {b : Nat} : b ∈ roots → b < g.size → blocked b = false → Reaches g blocked roots b
  | step {a b : Nat} : Reaches g blocked roots a → b ∈ g.succs a → b < g.size → blocked b = false →
    Reaches g blocked roots b

namespace Reaches

variable {g : Digraph} {blocked blocked' : Nat → Bool} {roots : List Nat} {a b : Nat}

theorem lt (h : g.Reaches blocked roots b) : b < g.size := by
  cases h with
  | root _ hlt _ => exact hlt
  | step _ _ hlt _ => exact hlt

theorem free (h : g.Reaches blocked roots b) : blocked b = false := by
  cases h with
  | root _ _ hfree => exact hfree
  | step _ _ _ hfree => exact hfree

theorem mono (h : g.Reaches blocked roots b) (hblocked : ∀ c, blocked' c = true → blocked c = true) :
    g.Reaches blocked' roots b := by
  have hfree {c : Nat} (hc : blocked c = false) : blocked' c = false := by
    by_contra hc'
    simp [hblocked c (by simpa using hc')] at hc
  induction h with
  | root hroot hlt hb => exact .root hroot hlt (hfree hb)
  | step _ hedge hlt hb ih => exact .step ih hedge hlt (hfree hb)

/-- Of two nodes, a way leads to one without the other. -/
theorem one_first (h : g.Reaches (fun _ => false) roots b) (hne : a ≠ b) :
    g.Reaches (· == b) roots a ∨ g.Reaches (· == a) roots b := by
  suffices ∀ n, g.Reaches (fun _ => false) roots n → g.Reaches (fun c => c == a || c == b) roots n ∨
      g.Reaches (· == b) roots a ∨ g.Reaches (· == a) roots b from
    (this b h).resolve_left fun hb => by simpa using hb.free
  intro n hn
  induction hn with
  | @root n hroot hlt _ =>
      by_cases ha : n = a
      · exact .inr (.inl (ha ▸ .root hroot hlt (by simpa [ha] using hne)))
      · by_cases hb : n = b
        · exact .inr (.inr (hb ▸ .root hroot hlt (by simpa [hb] using hne.symm)))
        · exact .inl (.root hroot hlt (by simp [ha, hb]))
  | @step m n _ hedge hlt _ ih =>
      rcases ih with hm | hdone
      · by_cases ha : n = a
        · exact .inr (.inl (ha ▸ .step (hm.mono fun c hc => by simp_all) hedge hlt (by simpa [ha] using hne)))
        · by_cases hb : n = b
          · exact .inr (.inr (hb ▸ .step (hm.mono fun c hc => by simp_all) hedge hlt (by simpa [hb] using hne.symm)))
          · exact .inl (.step hm hedge hlt (by simp [ha, hb]))
      · exact .inr hdone

end Reaches

theorem reaches_tabulate {g : Digraph} {blocked : Nat → Bool} {roots : List Nat} {b : Nat} :
    g.tabulate.Reaches blocked roots b ↔ g.Reaches blocked roots b := by
  have hsuccs {a : Nat} (ha : a < g.size) : g.tabulate.succs a = g.succs a := by simp [tabulate, ha]
  constructor
  · intro h
    induction h with
    | root hroot hlt hb => exact .root hroot hlt hb
    | step h hedge hlt hb ih => exact .step ih (by rwa [hsuccs ih.lt] at hedge) hlt hb
  · intro h
    induction h with
    | root hroot hlt hb => exact .root hroot hlt hb
    | step h hedge hlt hb ih => exact .step ih (by rwa [hsuccs h.lt]) hlt hb

section

variable {g : Digraph} {blocked : Nat → Bool} {roots : List Nat}

def unseen (seen : Array Bool) : Nat := ((Finset.range seen.size).filter fun b => has seen b = false).card

theorem mark_eq (r : List Nat × Array Bool) (b : Nat) :
    mark blocked r b = r ∧ (b < r.2.size → blocked b = false → has r.2 b = true) ∨
    mark blocked r b = (b :: r.1, r.2.setIfInBounds b true) ∧ b < r.2.size ∧ blocked b = false ∧ has r.2 b = false := by
  unfold mark has
  by_cases hb : blocked b = true
  · exact .inl ⟨by simp [hb], by simp [hb]⟩
  · by_cases hlt : b < r.2.size
    · cases hseen : r.2[b] <;> simp [hb, hlt, hseen]
    · simp [hb, hlt]

theorem has_set (seen : Array Bool) (b c : Nat) (hb : b < seen.size) :
    has (seen.setIfInBounds b true) c = (has seen c || c == b) := by
  unfold has
  rw [Array.getElem?_setIfInBounds]
  by_cases h : b = c
  · subst h
    simp [hb]
  · simp [h, Ne.symm h]

theorem unseen_set {seen : Array Bool} {b : Nat} (hb : b < seen.size) (hfree : has seen b = false) :
    unseen (seen.setIfInBounds b true) + 1 = unseen seen := by
  have herase :
      (Finset.range (seen.setIfInBounds b true).size).filter (fun c => has (seen.setIfInBounds b true) c = false) =
      ((Finset.range seen.size).filter fun c => has seen c = false).erase b := by
    ext c
    simp only [Finset.mem_filter, Finset.mem_range, Finset.mem_erase, has_set seen b c hb, Array.size_setIfInBounds,
      Bool.or_eq_false_iff, beq_eq_false_iff_ne]
    tauto
  rw [unseen, herase]
  exact Finset.card_erase_add_one (Finset.mem_filter.mpr ⟨Finset.mem_range.mpr hb, hfree⟩)

structure Marked (blocked : Nat → Bool) (bs : List Nat) (r r' : List Nat × Array Bool) : Prop where
  size : r'.2.size = r.2.size
  has_iff : ∀ c, has r'.2 c = true ↔ has r.2 c = true ∨ c ∈ bs ∧ c < r.2.size ∧ blocked c = false
  keeps : ∀ c ∈ r.1, c ∈ r'.1
  added : ∀ c ∈ r'.1, c ∈ r.1 ∨ has r'.2 c = true
  fresh : ∀ c, has r'.2 c = true → has r.2 c = true ∨ c ∈ r'.1
  count : r'.1.length + unseen r'.2 = r.1.length + unseen r.2

theorem marked_foldl (bs : List Nat) (r : List Nat × Array Bool) : Marked blocked bs r (bs.foldl (mark blocked) r) := by
  induction bs generalizing r with
  | nil => exact ⟨rfl, by simp, fun _ h => h, fun _ h => .inl h, fun _ h => .inl h, rfl⟩
  | cons b bs ih =>
      obtain ⟨hsize, hhas, hkeeps, hadded, hfresh, hcount⟩ := ih (mark blocked r b)
      rw [List.foldl_cons]
      rcases @mark_eq blocked r b with ⟨hmark, hseen⟩ | ⟨hmark, hlt, hfree, hnew⟩
      · rw [hmark] at hsize hhas hkeeps hadded hfresh hcount ⊢
        refine ⟨hsize, fun c => (hhas c).trans ⟨?_, ?_⟩, hkeeps, hadded, hfresh, hcount⟩
        · exact fun h => h.imp_right fun h => ⟨List.mem_cons_of_mem _ h.1, h.2⟩
        · rintro (h | ⟨hc, hlt, hfree⟩)
          · exact .inl h
          · rcases List.mem_cons.mp hc with rfl | hc
            · exact .inl (hseen hlt hfree)
            · exact .inr ⟨hc, hlt, hfree⟩
      · rw [hmark] at hsize hhas hkeeps hadded hfresh hcount ⊢
        have hset (c : Nat) : has (r.2.setIfInBounds b true) c = true ↔ has r.2 c = true ∨ c = b := by
          rw [has_set _ _ _ hlt]
          simp
        simp only [Array.size_setIfInBounds, hset] at hsize hhas hfresh
        refine ⟨hsize, fun c => (hhas c).trans ?_, fun c hc => hkeeps c (List.mem_cons_of_mem _ hc),
          fun c hc => ?_, fun c hc => ?_, ?_⟩
        · simp only [List.mem_cons]
          constructor
          · rintro ((h | rfl) | h)
            · exact .inl h
            · exact .inr ⟨.inl rfl, hlt, hfree⟩
            · exact .inr ⟨.inr h.1, h.2⟩
          · rintro (h | ⟨rfl | hc, h⟩)
            · exact .inl (.inl h)
            · exact .inl (.inr rfl)
            · exact .inr ⟨hc, h⟩
        · rcases hadded c hc with hc | hc
          · rcases List.mem_cons.mp hc with rfl | hc
            · exact .inr ((hhas c).mpr (.inl (.inr rfl)))
            · exact .inl hc
          · exact .inr hc
        · rcases hfresh c hc with (h | rfl) | h
          · exact .inl h
          · exact .inr (hkeeps c (by simp))
          · exact .inr h
        · have hset := unseen_set hlt hnew
          rw [hcount]
          simp only [List.length_cons]
          omega

/-- What the search has come to: all that has been seen is reached, and leads on to what has been seen, unless it is
still on the list. -/
structure Frontier (g : Digraph) (blocked : Nat → Bool) (roots work : List Nat) (seen : Array Bool) : Prop where
  size : seen.size = g.size
  sound : ∀ b, has seen b = true → g.Reaches blocked roots b
  listed : ∀ b ∈ work, has seen b = true
  closed : ∀ a, has seen a = true → a ∉ work → ∀ b ∈ g.succs a, b < g.size → blocked b = false → has seen b = true

theorem Frontier.step {work : List Nat} {seen : Array Bool} {b : Nat} {r : List Nat × Array Bool}
    (h : Frontier g blocked roots (b :: work) seen) (hr : Marked blocked (g.succs b) (work, seen) r) :
    Frontier g blocked roots r.1 r.2 := by
  refine ⟨hr.size.trans h.size, fun c hc => ?_, fun c hc => ?_, fun a ha hwork c hc hlt hfree => ?_⟩
  · rcases (hr.has_iff c).mp hc with hc | ⟨hedge, hlt, hfree⟩
    · exact h.sound c hc
    · exact .step (h.sound b (h.listed b (by simp))) hedge (h.size ▸ hlt) hfree
  · rcases hr.added c hc with hc | hc
    · exact (hr.has_iff c).mpr (.inl (h.listed c (List.mem_cons_of_mem _ hc)))
    · exact hc
  · have hseen : has seen a = true := (hr.fresh a ha).resolve_right hwork
    rw [hr.has_iff]
    by_cases hab : a = b
    · exact .inr ⟨hab ▸ hc, h.size ▸ hlt, hfree⟩
    · refine .inl (h.closed a hseen (fun hmem => ?_) c hc hlt hfree)
      rcases List.mem_cons.mp hmem with hmem | hmem
      · exact hab hmem
      · exact hwork (hr.keeps a hmem)

/-- No more rounds are needed than there are nodes. -/
theorem follow_frontier (rounds : Nat) (work : List Nat) (seen : Array Bool) (h : Frontier g blocked roots work seen)
    (hrounds : work.length + unseen seen ≤ rounds) :
    Frontier g blocked roots [] (g.follow blocked rounds (work, seen)) ∧
      ∀ c, has seen c = true → has (g.follow blocked rounds (work, seen)) c = true := by
  induction rounds generalizing work seen with
  | zero =>
      obtain rfl : work = [] := List.eq_nil_of_length_eq_zero (by omega)
      exact ⟨h, fun _ hc => hc⟩
  | succ rounds ih =>
      cases work with
      | nil => exact ⟨h, fun _ hc => hc⟩
      | cons b work =>
          have hmarked : Marked blocked (g.succs b) (work, seen) ((g.succs b).foldl (mark blocked) (work, seen)) :=
            marked_foldl _ _
          -- What the round adds to the work has been unseen before it.
          have hcount : _ = work.length + unseen seen := hmarked.count
          rw [List.length_cons] at hrounds
          obtain ⟨hend, hkeeps⟩ := ih _ _ (h.step hmarked) (by omega)
          exact ⟨hend, fun c hc => hkeeps c ((hmarked.has_iff c).mpr (.inl hc))⟩

theorem reach_frontier (g : Digraph) (blocked : Nat → Bool) (roots : List Nat) :
    Frontier g blocked roots [] (g.reach blocked roots) ∧
      ∀ c ∈ roots, c < g.size → blocked c = false → has (g.reach blocked roots) c = true := by
  have hnone (c : Nat) : has (Array.replicate g.size false) c = false := by
    unfold has
    rw [Array.getElem?_replicate]
    split <;> rfl
  have hmarked : Marked blocked roots ([], Array.replicate g.size false)
    (roots.foldl (mark blocked) ([], Array.replicate g.size false)) :=
    marked_foldl _ _
  have hhas := hmarked.has_iff
  simp only [hnone, Bool.false_eq_true, false_or, Array.size_replicate] at hhas
  rw [reach]
  generalize roots.foldl (mark blocked) ([], Array.replicate g.size false) = r at hmarked hhas ⊢
  have hstart : Frontier g blocked roots r.1 r.2 := by
    refine ⟨hmarked.size.trans (by simp), fun b hb => ?_, fun b hb => ?_, fun a ha hwork => ?_⟩
    · obtain ⟨hroot, hlt, hfree⟩ := (hhas b).mp hb
      exact .root hroot hlt hfree
    · exact (hmarked.added b hb).resolve_left (by simp)
    · exact absurd ((hmarked.fresh a ha).resolve_left (by simp [hnone])) hwork
  have hcount := hmarked.count
  have hall : unseen (Array.replicate g.size false) ≤ g.size := by
    simpa [unseen] using Finset.card_filter_le (Finset.range g.size) fun b =>
      has (Array.replicate g.size false) b = false
  obtain ⟨hend, hkeeps⟩ := follow_frontier g.size _ _ hstart (by simpa [hcount] using hall)
  exact ⟨hend, fun c hroot hlt hfree => hkeeps c ((hhas c).mpr ⟨hroot, hlt, hfree⟩)⟩

theorem size_reach (g : Digraph) (blocked : Nat → Bool) (roots : List Nat) : (g.reach blocked roots).size = g.size :=
  (reach_frontier g blocked roots).1.size

theorem has_reach {b : Nat} : has (g.reach blocked roots) b = true ↔ g.Reaches blocked roots b := by
  obtain ⟨hend, hroots⟩ := reach_frontier g blocked roots
  refine ⟨hend.sound b, fun h => ?_⟩
  induction h with
  | root hroot hlt hfree => exact hroots _ hroot hlt hfree
  | step _ hedge hlt hfree ih => exact hend.closed _ ih (by simp) _ hedge hlt hfree

end

section

variable {g : Digraph} {root a b : Nat}

/-- A node dominates another one that is reached if no way leads there without it. -/
theorem dominates_iff (ha : a < g.size) (hb : g.Reaches (fun _ => false) [root] b) :
    (g.dominators root).dominates a b = true ↔ a = b ∨ ¬ g.Reaches (· == a) [root] b := by
  have hreached : has (g.dominators root).reached b = true := has_reach.mpr hb
  have havoiding : (g.dominators root).avoiding[a]? = some (g.reach (· == a) [root]) := by
    simp [dominators, without, ha]
  rw [Dominators.dominates, hreached, havoiding, Option.getD_some, ← has_reach]
  simp

end

end JavaLift.Digraph
