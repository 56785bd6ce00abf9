import JavaLift.DefUse.Chain
import Mathlib

namespace JavaLift.Webs

open Relation

def classOf (classes : Array Nat) (d : Nat) : Nat := (classes[d]?).getD d

def Shares (c : Chain) (d e : Nat) : Prop := ∃ u ∈ c.uses, d ∈ u.reaching ∧ e ∈ u.reaching

section

variable {classes : Array Nat} {a b d e n : Nat} {R : Nat → Nat → Prop}

theorem size_merge (classes : Array Nat) (a b : Nat) : (merge classes a b).size = classes.size := by
  unfold merge
  dsimp only
  split <;> simp

theorem classOf_map (hd : d < classes.size) (f : Nat → Nat) : classOf (classes.map f) d = f (classOf classes d) := by
  simp [classOf, hd]

theorem classOf_merge (hd : d < classes.size) : classOf (merge classes a b) d =
    if classOf classes d = max (classOf classes a) (classOf classes b) then min (classOf classes a) (classOf classes b)
    else classOf classes d := by
  unfold merge
  change classOf (if classOf classes a = classOf classes b then classes else classes.map fun c =>
    if c = max (classOf classes a) (classOf classes b) then min (classOf classes a) (classOf classes b) else c) d = _
  by_cases hsame : classOf classes a = classOf classes b
  · rw [if_pos hsame, hsame, max_self, min_self]
    split_ifs with hd
    · exact hd
    · rfl
  · rw [if_neg hsame, classOf_map hd]

/-- Each class goes by a member of it that is not behind the others, and chains of related definitions join its
members. -/
structure Classes (R : Nat → Nat → Prop) (classes : Array Nat) : Prop where
  le : ∀ d, classOf classes d ≤ d
  root : ∀ d < classes.size, classOf classes (classOf classes d) = classOf classes d
  joined : ∀ d < classes.size, ∀ e < classes.size, classOf classes d = classOf classes e → EqvGen R d e

theorem classes_range (R : Nat → Nat → Prop) (n : Nat) : Classes R (Array.range n) := by
  have hself (d : Nat) : classOf (Array.range n) d = d := by
    unfold classOf
    rcases Nat.lt_or_ge d n with h | h <;> simp [h]
  refine ⟨fun d => (hself d).le, fun d _ => by rw [hself d, hself d], fun d _ e _ h => ?_⟩
  rw [hself, hself] at h
  exact h ▸ .refl d

theorem Classes.joined_root (h : Classes R classes) (hd : d < classes.size) : EqvGen R d (classOf classes d) :=
  h.joined d hd _ ((h.le d).trans_lt hd) (h.root d hd).symm

theorem Classes.merge (h : Classes R classes) (ha : a < classes.size) (hb : b < classes.size)
    (hab : EqvGen R a b) : Classes R (merge classes a b) := by
  have hroot (c : Nat) (hc : c = classOf classes a ∨ c = classOf classes b) : classOf classes c = c ∧ c < classes.size := by
    rcases hc with rfl | rfl
    · exact ⟨h.root a ha, (h.le a).trans_lt ha⟩
    · exact ⟨h.root b hb, (h.le b).trans_lt hb⟩
  have hmin := hroot _ (min_choice (classOf classes a) (classOf classes b))
  have hmax := hroot _ (max_choice (classOf classes a) (classOf classes b))
  -- The two classes that are joined are related through their names.
  have hnames : EqvGen R (classOf classes a) (classOf classes b) :=
    ((h.joined_root ha).symm _ _ |>.trans _ _ _ hab).trans _ _ _ (h.joined_root hb)
  have hends : EqvGen R (max (classOf classes a) (classOf classes b)) (min (classOf classes a) (classOf classes b)) := by
    rcases le_total (classOf classes a) (classOf classes b) with hle | hle
    · rw [max_eq_right hle, min_eq_left hle]
      exact hnames.symm _ _
    · rw [max_eq_left hle, min_eq_right hle]
      exact hnames
  have hnew {c : Nat} (hc : c < classes.size) : EqvGen R c (classOf (Webs.merge classes a b) c) := by
    rw [classOf_merge hc]
    split_ifs with hsame
    · exact (hsame ▸ h.joined_root hc).trans _ _ _ hends
    · exact h.joined_root hc
  refine ⟨fun d => ?_, fun d hd => ?_, fun d hd e he hsame => ?_⟩
  · rcases Nat.lt_or_ge d classes.size with hd | hd
    · rw [classOf_merge hd]
      have hle := h.le d
      split_ifs <;> omega
    · simp [classOf, size_merge, hd]
  · rw [size_merge] at hd
    rw [classOf_merge hd]
    split_ifs with hsame
    · rw [classOf_merge hmin.2, hmin.1]
      split_ifs <;> rfl
    · rw [classOf_merge ((h.le d).trans_lt hd), h.root d hd, if_neg hsame]
  · rw [size_merge] at hd he
    exact (hnew hd).trans _ _ _ (hsame ▸ (hnew he).symm _ _)

theorem same_merge (ha : a < classes.size) (hb : b < classes.size) :
    classOf (merge classes a b) a = classOf (merge classes a b) b := by
  rw [classOf_merge ha, classOf_merge hb]
  rcases le_total (classOf classes a) (classOf classes b) with hle | hle
  · rw [max_eq_right hle, min_eq_left hle]
    split_ifs <;> simp_all
  · rw [max_eq_left hle, min_eq_right hle]
    split_ifs <;> simp_all

/-- Merging related definitions keeps what is said of the classes, and what was in one class stays so. -/
structure Merged (R : Nat → Nat → Prop) (before after : Array Nat) : Prop where
  size : after.size = before.size
  classes : Classes R after
  keeps : ∀ d < before.size, ∀ e < before.size, classOf before d = classOf before e → classOf after d = classOf after e

theorem Merged.refl (h : Classes R classes) : Merged R classes classes := ⟨rfl, h, fun _ _ _ _ => id⟩

theorem Merged.trans {before mid after : Array Nat} (h : Merged R before mid) (h' : Merged R mid after) :
    Merged R before after where
  size := h'.size.trans h.size
  classes := h'.classes
  keeps d hd e he hsame := h'.keeps d (h.size ▸ hd) e (h.size ▸ he) (h.keeps d hd e he hsame)

theorem merged_merge (h : Classes R classes) (ha : a < classes.size) (hb : b < classes.size) (hab : EqvGen R a b) :
    Merged R classes (merge classes a b) where
  size := size_merge classes a b
  classes := h.merge ha hb hab
  keeps d hd e he hsame := by rw [classOf_merge hd, classOf_merge he, hsame]

theorem merged_foldl (rest : List Nat) (h : Classes R classes) (hd : d < classes.size)
    (hrest : ∀ e ∈ rest, e < classes.size ∧ EqvGen R d e) :
    Merged R classes (rest.foldl (fun classes e => merge classes d e) classes) ∧
      ∀ e ∈ rest, classOf (rest.foldl (fun classes e => merge classes d e) classes) d =
        classOf (rest.foldl (fun classes e => merge classes d e) classes) e := by
  induction rest generalizing classes with
  | nil => exact ⟨.refl h, nofun⟩
  | cons e rest ih =>
      rw [List.forall_mem_cons] at hrest ⊢
      obtain ⟨⟨he, hde⟩, hrest⟩ := hrest
      have hfirst := merged_merge h hd he hde
      obtain ⟨hlater, hjoined⟩ := ih hfirst.classes (hfirst.size ▸ hd) (hfirst.size ▸ hrest)
      exact ⟨hfirst.trans hlater,
        hlater.keeps d (hfirst.size ▸ hd) e (hfirst.size ▸ he) (same_merge hd he), hjoined⟩

theorem merged_mergeAll (ds : List Nat) (h : Classes R classes) (hds : ∀ d ∈ ds, d < classes.size)
    (hrelated : ∀ d ∈ ds, ∀ e ∈ ds, EqvGen R d e) :
    Merged R classes (mergeAll classes ds) ∧
      ∀ d ∈ ds, ∀ e ∈ ds, classOf (mergeAll classes ds) d = classOf (mergeAll classes ds) e := by
  cases ds with
  | nil => exact ⟨.refl h, nofun⟩
  | cons d rest =>
      have hd := hds d List.mem_cons_self
      obtain ⟨hmerged, hjoined⟩ := merged_foldl rest h hd fun e he =>
        ⟨hds e (List.mem_cons_of_mem _ he), hrelated d List.mem_cons_self e (List.mem_cons_of_mem _ he)⟩
      have hfirst : ∀ e ∈ d :: rest, classOf (mergeAll classes (d :: rest)) d = classOf (mergeAll classes (d :: rest)) e :=
        List.forall_mem_cons.mpr ⟨rfl, hjoined⟩
      exact ⟨hmerged, fun e he e' he' => (hfirst e he).symm.trans (hfirst e' he')⟩

/-- After the definitions of all uses are merged, those of each use are in one class. -/
theorem merged_uses (uses : List Use) (h : Classes R classes) (hds : ∀ u ∈ uses, ∀ d ∈ u.reaching, d < classes.size)
    (hrelated : ∀ u ∈ uses, ∀ d ∈ u.reaching, ∀ e ∈ u.reaching, EqvGen R d e) :
    Merged R classes (uses.foldl (fun classes u => mergeAll classes u.reaching) classes) ∧
      ∀ u ∈ uses, ∀ d ∈ u.reaching, ∀ e ∈ u.reaching,
        classOf (uses.foldl (fun classes u => mergeAll classes u.reaching) classes) d =
          classOf (uses.foldl (fun classes u => mergeAll classes u.reaching) classes) e := by
  induction uses generalizing classes with
  | nil => exact ⟨.refl h, nofun⟩
  | cons u rest ih =>
      rw [List.forall_mem_cons] at hds hrelated ⊢
      obtain ⟨hfirst, hsame⟩ := merged_mergeAll u.reaching h hds.1 hrelated.1
      obtain ⟨hlater, hjoined⟩ := ih hfirst.classes (hfirst.size ▸ hds.2) hrelated.2
      refine ⟨hfirst.trans hlater, fun d hd e he => ?_, hjoined⟩
      exact hlater.keeps d (hfirst.size ▸ hds.1 d hd) e (hfirst.size ▸ hds.1 e he) (hsame d hd e he)

end

section

variable {c : Chain} {d e id v : Nat} {u : Use}

def Closed (c : Chain) : Prop := ∀ u ∈ c.uses, ∀ d ∈ u.reaching, d < c.defs.size

theorem merged_classesOf (hc : Closed c) :
    Merged (Shares c) (Array.range c.defs.size) (classesOf c) ∧
      ∀ u ∈ c.uses, ∀ d ∈ u.reaching, ∀ e ∈ u.reaching, classOf (classesOf c) d = classOf (classesOf c) e := by
  unfold classesOf
  simp only [← Array.foldl_toList, ← Array.mem_toList_iff]
  refine merged_uses c.uses.toList (classes_range _ _) (fun u hu d hd => ?_) fun u hu d hd e he => ?_
  · rw [Array.size_range]
    exact hc u (Array.mem_toList_iff.mp hu) d hd
  · exact .rel _ _ ⟨u, Array.mem_toList_iff.mp hu, hd, he⟩

theorem size_classesOf (hc : Closed c) : (classesOf c).size = c.defs.size :=
  (merged_classesOf hc).1.size.trans Array.size_range

/-- Two definitions are in one class just when a chain of shared uses leads from one to the other. -/
theorem classOf_eq_iff (hc : Closed c) (hd : d < c.defs.size) (he : e < c.defs.size) :
    classOf (classesOf c) d = classOf (classesOf c) e ↔ EqvGen (Shares c) d e := by
  obtain ⟨hmerged, hsame⟩ := merged_classesOf hc
  refine ⟨hmerged.classes.joined d (size_classesOf hc ▸ hd) e (size_classesOf hc ▸ he), fun h => ?_⟩
  clear hd he
  induction h with
  | rel d e h =>
      obtain ⟨u, hu, hdu, heu⟩ := h
      exact hsame u hu d hdu e heu
  | refl => rfl
  | symm _ _ _ ih => exact ih.symm
  | trans _ _ _ _ _ ih ih' => exact ih.trans ih'

def roots (c : Chain) : List Nat := (List.range c.defs.size).filter fun d => (classesOf c)[d]? == some d

def varOf (c : Chain) (d : Nat) : Nat := (roots c).idxOf (classOf (classesOf c) d)

theorem getElem?_classesOf (hc : Closed c) (hd : d < c.defs.size) :
    (classesOf c)[d]? = some (classOf (classesOf c) d) := by
  simp [classOf, size_classesOf hc, hd]

theorem mem_roots (hc : Closed c) : d ∈ roots c ↔ d < c.defs.size ∧ classOf (classesOf c) d = d := by
  rw [roots, List.mem_filter, List.mem_range, beq_iff_eq]
  refine and_congr_right fun hd => ?_
  rw [getElem?_classesOf hc hd, Option.some.injEq]

theorem classOf_mem_roots (hc : Closed c) (hd : d < c.defs.size) : classOf (classesOf c) d ∈ roots c := by
  have hclasses := (merged_classesOf hc).1.classes
  exact (mem_roots hc).mpr ⟨(hclasses.le d).trans_lt hd, hclasses.root d (size_classesOf hc ▸ hd)⟩

theorem pairwise_roots (c : Chain) : (roots c).Pairwise (· < ·) := List.pairwise_lt_range.filter _

theorem getElem?_defVar (hc : Closed c) (hd : d < c.defs.size) : (of c).defVar[d]? = some (varOf c d) := by
  change ((classesOf c).map fun root => (roots c).idxOf root)[d]? = _
  rw [Array.getElem?_map, getElem?_classesOf hc hd, Option.map_some, varOf]

theorem size_of (c : Chain) : (of c).size = (roots c).length := by
  change ((roots c).map _).toArray.size = _
  simp

theorem varOf_lt (hc : Closed c) (hd : d < c.defs.size) : varOf c d < (of c).size := by
  rw [size_of]
  exact List.idxOf_lt_length_of_mem (classOf_mem_roots hc hd)

/-- Definitions have one variable just when a chain of shared uses leads from one to the other. -/
theorem varOf_eq_iff (hc : Closed c) (hd : d < c.defs.size) (he : e < c.defs.size) :
    varOf c d = varOf c e ↔ EqvGen (Shares c) d e := by
  rw [varOf, varOf, List.idxOf_inj (classOf_mem_roots hc hd), classOf_eq_iff hc hd he]

theorem getElem?_useVar (hc : Closed c) (hu : c.uses[id]? = some u) (hd : d ∈ u.reaching) :
    (of c).useVar[id]? = some (some (varOf c d)) := by
  change (c.uses.map fun u => u.reaching.head?.bind fun d => (of c).defVar[d]?)[id]? = _
  have hmem := Array.mem_of_getElem? hu
  cases hreaching : u.reaching with
  | nil => simp [hreaching] at hd
  | cons e rest =>
      have he : e ∈ u.reaching := hreaching ▸ List.mem_cons_self
      have hsame : varOf c e = varOf c d :=
        (varOf_eq_iff hc (hc u hmem e he) (hc u hmem d hd)).mpr (.rel _ _ ⟨u, hmem, he, hd⟩)
      rw [Array.getElem?_map, hu, Option.map_some, hreaching, List.head?_cons, Option.bind_some,
        getElem?_defVar hc (hc u hmem e he), hsame]

theorem getElem?_useVar_nil (hu : c.uses[id]? = some u) (hnone : u.reaching = []) : (of c).useVar[id]? = some none := by
  change (c.uses.map fun u => u.reaching.head?.bind fun d => (of c).defVar[d]?)[id]? = _
  rw [Array.getElem?_map, hu, Option.map_some, hnone, List.head?_nil, Option.bind_none]

def first (c : Chain) (v : Nat) : Nat := (roots c).getD v 0

theorem isLeast_first (hc : Closed c) (hv : v < (of c).size) :
    IsLeast {d | d < c.defs.size ∧ varOf c d = v} (first c v) := by
  rw [size_of] at hv
  have hmem : first c v ∈ roots c := by
    rw [first, List.getD_eq_getElem _ _ hv]
    exact List.getElem_mem hv
  obtain ⟨hlt, hroot⟩ := (mem_roots hc).mp hmem
  refine ⟨⟨hlt, ?_⟩, fun d hd => ?_⟩
  · rw [varOf, hroot, first, List.getD_eq_getElem _ _ hv]
    exact (pairwise_roots c).nodup.idxOf_getElem v hv
  · obtain ⟨hd, rfl⟩ := hd
    have hclass : first c (varOf c d) = classOf (classesOf c) d := by
      rw [first, List.getD_eq_getElem _ _ hv]
      exact List.getElem_idxOf hv
    exact hclass ▸ (merged_classesOf hc).1.classes.le d

theorem first_lt_first {w : Nat} (hw : w < (of c).size) (hvw : v < w) : first c v < first c w := by
  rw [size_of] at hw
  rw [first, first, List.getD_eq_getElem _ _ (hvw.trans hw), List.getD_eq_getElem _ _ hw]
  exact List.pairwise_iff_getElem.mp (pairwise_roots c) v w _ hw hvw

theorem getElem?_varRegs (hc : Closed c) (hv : v < (of c).size) :
    (of c).varRegs[v]? = (c.defs[first c v]?).map Def.reg := by
  have hlt := (isLeast_first hc hv).1.1
  rw [size_of] at hv
  change ((roots c).map fun d => (c.defs[d]?).elim 0 (·.reg)).toArray[v]? = _
  rw [List.getElem?_toArray, List.getElem?_map, List.getElem?_eq_getElem hv, Option.map_some,
    Array.getElem?_eq_getElem hlt, Option.map_some]
  simp only [first, List.getD_eq_getElem _ _ hv] at hlt ⊢
  simp [hlt]

end

end JavaLift.Webs
