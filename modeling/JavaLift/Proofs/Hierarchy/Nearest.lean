import JavaLift.Proofs.Hierarchy.Ancestors

namespace JavaLift.Hierarchy

open Relation

variable {h : Hierarchy} {name a b c d n m : String} {known : List String} {i k steps rounds : Nat}

/-- No class is properly above itself. -/
def Acyclic (h : Hierarchy) : Prop := ∀ a, ¬ TransGen (fun a b => b ∈ h.above a) a a

def Climbs (h : Hierarchy) : Nat → String → String → Prop
  | 0, a, b => a = b
  | steps + 1, a, c => ∃ b, h.Climbs steps a b ∧ c ∈ h.above b

/-- Nothing above both classes is a proper subtype of the third one. -/
def Nearest (h : Hierarchy) (a b c : String) : Prop := ∀ d, h.Reaches a d → h.Reaches b d → h.isSubtype d c → d = c

/-- Directly below another class. A class that is not known is directly below the root. -/
def Below (h : Hierarchy) (d c : String) : Prop :=
  c ∈ h.above d ∨ c = Ty.objectClass ∧ d ≠ Ty.objectClass ∧ h.find? d = none

def Related (h : Hierarchy) (a b : String) : Prop := h.isSubtype a b ∨ h.isSubtype b a

theorem reaches_iff_climbs : h.Reaches a b ↔ ∃ steps, h.Climbs steps a b := by
  constructor
  · intro hreach
    induction hreach with
    | refl => exact ⟨0, rfl⟩
    | tail _ hstep ih =>
        obtain ⟨steps, hsteps⟩ := ih
        exact ⟨steps + 1, _, hsteps, hstep⟩
  · rintro ⟨steps, hsteps⟩
    induction steps generalizing b with
    | zero => exact hsteps ▸ .refl
    | succ steps ih =>
        obtain ⟨m, hm, hstep⟩ := hsteps
        exact (ih hm).tail hstep

theorem prefix_climb (h : Hierarchy) (rounds i : Nat) (known : List String) : known <+: h.climb rounds i known := by
  induction rounds generalizing i known with
  | zero => exact List.prefix_refl known
  | succ rounds ih =>
      unfold climb
      cases known[i]? with
      | none => exact List.prefix_refl known
      | some n => exact (prefix_addNew known (h.above n)).trans (ih (i + 1) _)

def Traced (h : Hierarchy) (name : String) (i : Nat) (known : List String) : Prop :=
  ∀ n ∈ known, n = name ∨ ∃ j < i, ∃ m, known[j]? = some m ∧ n ∈ h.above m

theorem getElem?_of_prefix {l l' : List String} (hl : l <+: l') (hn : l[i]? = some n) : l'[i]? = some n := by
  obtain ⟨rest, rfl⟩ := hl
  rw [List.getElem?_append_left (List.getElem?_eq_some_iff.mp hn).1, hn]

theorem Traced.next (ht : h.Traced name i known) (hn : known[i]? = some n) :
    h.Traced name (i + 1) (addNew known (h.above n)) := by
  have hprefix := prefix_addNew known (h.above n)
  intro m hm
  rcases mem_addNew.mp hm with hm | hm
  · refine (ht m hm).imp_right ?_
    rintro ⟨j, hj, k, hk, habove⟩
    exact ⟨j, by omega, k, getElem?_of_prefix hprefix hk, habove⟩
  · exact .inr ⟨i, by omega, n, getElem?_of_prefix hprefix hn, hm⟩

/-- When the search goes on with a class, all that stands above it is found by then, and nothing that stands above
later classes only. -/
theorem Searched.exists_stage (hs : h.Searched name i known) (ht : h.Traced name i known) (hrounds : h.bound ≤ rounds + i)
    (hk : i ≤ k) (hn : (h.climb rounds i known)[k]? = some n) :
    ∃ stage, stage <+: h.climb rounds i known ∧ h.above n ⊆ stage ∧ h.Traced name (k + 1) stage := by
  induction rounds generalizing i known with
  | zero =>
      have hlt := hs.length_lt
      have hlen := (List.getElem?_eq_some_iff.mp hn).1
      simp only [Hierarchy.climb] at hlen
      omega
  | succ rounds ih =>
      unfold Hierarchy.climb at hn ⊢
      cases hi : known[i]? with
      | none =>
          rw [hi] at hn
          have hle := List.getElem?_eq_none_iff.mp hi
          have hlen : k < known.length := (List.getElem?_eq_some_iff.mp hn).1
          omega
      | some m =>
          rw [hi] at hn
          dsimp only at hn ⊢
          rcases Nat.eq_or_lt_of_le hk with rfl | hlt
          · have hprefix := prefix_climb h rounds (i + 1) (addNew known (h.above m))
            have hm := getElem?_of_prefix ((prefix_addNew known (h.above m)).trans hprefix) hi
            rw [hn] at hm
            cases hm
            exact ⟨_, hprefix, fun p hp => mem_addNew.mpr (.inr hp), ht.next hi⟩
          · exact ih (hs.next hi) (ht.next hi) (by omega) hlt hn

theorem nodup_reached (h : Hierarchy) (name : String) : (h.reached name).Nodup :=
  ((searched_start h name).climb (Nat.le_refl h.bound)).nodup

theorem idxOf_reached (hn : (h.reached name)[i]? = some n) : (h.reached name).idxOf n = i := by
  obtain ⟨hlt, rfl⟩ := List.getElem?_eq_some_iff.mp hn
  exact (nodup_reached h name).idxOf_getElem i hlt

theorem getElem?_reached_zero (h : Hierarchy) (name : String) : (h.reached name)[0]? = some name := by
  have hprefix : [name] <+: h.reached name := prefix_climb h h.bound 0 [name]
  exact getElem?_of_prefix hprefix rfl

/-- A class that is met no later than one above `m` is the first one, or stands above one met no later than `m`. -/
theorem exists_below_of_idxOf_le (hm : m ∈ h.reached name) (hd : d ∈ h.above m) (hc : c ∈ h.reached name)
    (hle : (h.reached name).idxOf c ≤ (h.reached name).idxOf d) :
    c = name ∨ ∃ p ∈ h.reached name, c ∈ h.above p ∧ (h.reached name).idxOf p ≤ (h.reached name).idxOf m := by
  obtain ⟨stage, hstage, habove, htraced⟩ := (searched_start h name).exists_stage
    (fun n hn => .inl (List.mem_singleton.mp hn)) (Nat.le_refl h.bound) (Nat.zero_le _) (List.getElem?_idxOf hm)
  have hget : stage[(h.reached name).idxOf c]? = some c := by
    obtain ⟨rest, hrest⟩ := hstage
    change stage ++ rest = h.reached name at hrest
    have hlt : (h.reached name).idxOf c < stage.length := by
      refine hle.trans_lt ?_
      rw [← hrest, List.idxOf_append_of_mem (habove hd)]
      exact List.idxOf_lt_length_iff.mpr (habove hd)
    rw [← List.getElem?_append_left hlt, hrest, List.getElem?_idxOf hc]
  refine (htraced c (List.mem_of_getElem? hget)).imp_right ?_
  rintro ⟨j, hj, p, hp, hcp⟩
  have hp' : (h.reached name)[j]? = some p := getElem?_of_prefix hstage hp
  refine ⟨p, List.mem_of_getElem? hp', hcp, ?_⟩
  rw [idxOf_reached hp']
  exact Nat.lt_succ_iff.mp hj

/-- What is met no later is no more steps up. -/
theorem climbs_of_idxOf_le (hd : h.Climbs steps name d) (hc : c ∈ h.reached name)
    (hle : (h.reached name).idxOf c ≤ (h.reached name).idxOf d) : ∃ fewer ≤ steps, h.Climbs fewer name c := by
  induction steps generalizing c d with
  | zero =>
      obtain rfl : name = d := hd
      have hget := List.getElem?_idxOf hc
      rw [idxOf_reached (getElem?_reached_zero h name)] at hle
      rw [Nat.le_zero.mp hle, getElem?_reached_zero] at hget
      exact ⟨0, Nat.le_refl 0, Option.some.inj hget⟩
  | succ steps ih =>
      obtain ⟨m, hm, hstep⟩ := hd
      rcases exists_below_of_idxOf_le (mem_reached.mpr (reaches_iff_climbs.mpr ⟨steps, hm⟩)) hstep hc hle with
        rfl | ⟨p, hp, hcp, hle'⟩
      · exact ⟨0, Nat.zero_le _, rfl⟩
      · obtain ⟨fewer, hfewer, hclimbs⟩ := ih hm hp hle'
        exact ⟨fewer + 1, Nat.succ_le_succ hfewer, p, hclimbs, hcp⟩

theorem idxOf_le_of_find? {p : String → Bool} {l : List String} (hc : l.find? p = some c) (hd : d ∈ l) (hp : p d = true) :
    l.idxOf c ≤ l.idxOf d := by
  induction l with
  | nil => cases hd
  | cons n l ih =>
      rw [List.find?_cons] at hc
      cases hn : p n with
      | true =>
          rw [hn] at hc
          cases hc
          rw [List.idxOf_cons_self]
          exact Nat.zero_le _
      | false =>
          rw [hn] at hc
          have hnd : n ≠ d := fun he => by rw [he, hp] at hn; cases hn
          have hnc : n ≠ c := fun he => by rw [he, List.find?_some hc] at hn; cases hn
          rw [List.idxOf_cons_ne l hnc, List.idxOf_cons_ne l hnd]
          exact Nat.succ_le_succ (ih hc ((List.mem_cons.mp hd).resolve_left hnd.symm))

/-- Of two classes that are not related, the class found is the fewest steps above the first one, among all above
both. -/
theorem common?_fewest (hc : h.common? a b = some c) (hrel : ¬ h.Related a b) (hd : h.Climbs steps a d)
    (hbd : h.Reaches b d) : ∃ fewer ≤ steps, h.Climbs fewer a c := by
  have had : d ∈ h.reached a := mem_reached.mpr (reaches_iff_climbs.mpr ⟨steps, hd⟩)
  unfold common? at hc
  rw [if_neg fun hab => hrel (.inl hab), if_neg fun hba => hrel (.inr hba)] at hc
  obtain ⟨rest, hrest⟩ : h.reached a <+: h.ancestors a := by
    unfold ancestors
    dsimp only
    split
    · exact List.prefix_append _ _
    · exact List.prefix_refl _
  have hle := idxOf_le_of_find? hc (mem_ancestors.mpr (.inl (mem_reached.mp had)))
    (List.contains_iff_mem.mpr (mem_ancestors.mpr (.inl hbd)))
  rw [← hrest, List.idxOf_append_of_mem had] at hle
  -- The root may be listed after all that is reached, and then it is not met before `d`.
  by_cases hca : c ∈ h.reached a
  · rw [List.idxOf_append_of_mem hca] at hle
    exact climbs_of_idxOf_le hd hca hle
  · rw [List.idxOf_append_of_notMem hca] at hle
    have := List.idxOf_lt_length_iff.mpr had
    omega

theorem Acyclic.antisymm (hacyclic : h.Acyclic) (hab : h.Reaches a b) (hba : h.Reaches b a) : a = b := by
  rcases reflTransGen_iff_eq_or_transGen.mp hab with he | hlt
  · exact he.symm
  · exact absurd (hlt.trans_left hba) (hacyclic a)

theorem exists_above_of_find? (hn : n ≠ Ty.objectClass) (hfind : h.find? n ≠ none) : ∃ m, m ∈ h.above n := by
  obtain ⟨found, hfound⟩ := Option.ne_none_iff_exists'.mp hfind
  refine ⟨found.superClass.getD Ty.objectClass, ?_⟩
  rw [above, if_neg hn, hfound]
  exact List.mem_cons_self

/-- Without circles the way up ends at the root, or at a class that is not known. -/
theorem Acyclic.exists_below_root (hacyclic : h.Acyclic) (hd : d ≠ Ty.objectClass) :
    ∃ x, h.Reaches d x ∧ h.Below x Ty.objectClass := by
  by_contra hnone
  have hknown (x : String) (hx : h.Reaches d x) : x ≠ Ty.objectClass ∧ ∃ y, y ∈ h.above x := by
    have hroot : x ≠ Ty.objectClass := by
      rintro rfl
      rcases ReflTransGen.cases_tail hx with he | ⟨y, hy, hstep⟩
      · exact hd he.symm
      · exact hnone ⟨y, hy, .inl hstep⟩
    exact ⟨hroot, exists_above_of_find? hroot fun hfind => hnone ⟨x, hx, .inr ⟨rfl, hroot, hfind⟩⟩⟩
  -- Among the finitely many classes reached one would be highest, and yet something stands above it.
  let higher : {x // x ∈ h.reached d} → {x // x ∈ h.reached d} → Prop :=
    fun x y => TransGen (fun a b => b ∈ h.above a) y.1 x.1
  have : IsTrans _ higher := ⟨fun _ _ _ hxy hyz => hyz.trans hxy⟩
  have : Std.Irrefl higher := ⟨fun x => hacyclic x.1⟩
  have hwf : WellFounded higher := Finite.wellFounded_of_trans_of_irrefl higher
  obtain ⟨⟨x, hx⟩, -, hmin⟩ := hwf.has_min Set.univ ⟨⟨d, mem_reached.mpr .refl⟩, trivial⟩
  obtain ⟨-, y, hy⟩ := hknown x (mem_reached.mp hx)
  exact hmin ⟨y, mem_reached.mpr ((mem_reached.mp hx).tail hy)⟩ trivial (.single hy)

/-- What is directly below a class is a proper subtype of it. -/
theorem Acyclic.of_below (hacyclic : h.Acyclic) (hd : h.Below d c) : h.isSubtype d c ∧ d ≠ c := by
  rcases hd with hstep | ⟨rfl, hne, -⟩
  · refine ⟨isSubtype_iff.mpr (.inr (.single hstep)), ?_⟩
    rintro rfl
    exact hacyclic d (.single hstep)
  · exact ⟨isSubtype_root h d, hne⟩

/-- Below every proper subtype of a class, or at it, one is directly below the class. -/
theorem Acyclic.exists_below (hacyclic : h.Acyclic) (hd : h.isSubtype d c) (hne : d ≠ c) :
    ∃ x, h.Reaches d x ∧ h.Below x c := by
  rcases isSubtype_iff.mp hd with rfl | hreach
  · exact hacyclic.exists_below_root hne
  · rcases ReflTransGen.cases_tail hreach with he | ⟨x, hx, hstep⟩
    · exact absurd he.symm hne
    · exact ⟨x, hx, .inl hstep⟩

/-- Of related classes the upper one is found, and it is the nearest. -/
theorem Acyclic.nearest_of_related (hacyclic : h.Acyclic) (hc : h.common? a b = some c) (hrel : h.Related a b) :
    h.Nearest a b c := by
  have hupper : c = a ∨ c = b := by
    rcases common?_eq_some hc with ⟨-, he⟩ | ⟨-, -, he⟩ | ⟨hab, hba, -⟩
    · exact .inr he
    · exact .inl he
    · exact absurd hrel (not_or.mpr ⟨hab, hba⟩)
  intro d had hbd hdc
  have hcd : h.Reaches c d := by
    rcases hupper with rfl | rfl
    · exact had
    · exact hbd
  rcases isSubtype_iff.mp hdc with rfl | hreach
  · exact reaches_root.mp hcd
  · exact hacyclic.antisymm hreach hcd

/-- The common supertype that is found is a nearest one exactly if one of the classes is a subtype of the other, or if no
class above both is directly below it. Otherwise it is only the fewest steps above the first class. -/
theorem nearest_iff (hacyclic : h.Acyclic) (hc : h.common? a b = some c) :
    (h.Nearest a b c ↔ h.Related a b ∨ ∀ d, h.Reaches a d → h.Reaches b d → ¬ h.Below d c) ∧
      (¬ h.Related a b → ∀ steps d, h.Climbs steps a d → h.Reaches b d → ∃ fewer ≤ steps, h.Climbs fewer a c) := by
  refine ⟨⟨fun hnearest => ?_, ?_⟩, fun hrel steps d hd hbd => common?_fewest hc hrel hd hbd⟩
  · refine .inr fun d had hbd hbelow => ?_
    obtain ⟨hsub, hne⟩ := hacyclic.of_below hbelow
    exact hne (hnearest d had hbd hsub)
  · rintro (hrel | hnone)
    · exact hacyclic.nearest_of_related hc hrel
    intro d had hbd hdc
    by_contra hne
    obtain ⟨x, hx, hbelow⟩ := hacyclic.exists_below hdc hne
    exact hnone x (had.trans hx) (hbd.trans hx) hbelow

/-- There are no circles where each class can be ranked below those above it. -/
theorem acyclic_of_rank (rank : String → Nat)
    (hrank : ∀ c ∈ h.classes ++ standard, c.name ≠ Ty.objectClass → ∀ p ∈ parents c, rank c.name < rank p) :
    h.Acyclic := by
  have hstep (a b : String) (hb : b ∈ h.above a) : rank a < rank b := by
    unfold above at hb
    split at hb
    · cases hb
    rename_i hroot
    cases hfind : h.find? a with
    | none =>
        rw [hfind] at hb
        cases hb
    | some found =>
        rw [hfind] at hb
        simp only [find?, Option.orElse_eq_orElse, Option.orElse_eq_or, Option.or_eq_some_iff] at hfind
        have hmem : found ∈ h.classes ++ standard ∧ found.name = a := by
          rcases hfind with hfound | ⟨-, hfound⟩
          · exact ⟨List.mem_append_left _ (List.mem_of_find?_eq_some hfound), by simpa using List.find?_some hfound⟩
          · exact ⟨List.mem_append_right _ (List.mem_of_find?_eq_some hfound), by simpa using List.find?_some hfound⟩
        obtain ⟨hmem, rfl⟩ := hmem
        exact hrank found hmem hroot b hb
  intro a ha
  have hlt (b : String) (hb : TransGen (fun a b => b ∈ h.above a) a b) : rank a < rank b := by
    induction hb with
    | single hb => exact hstep _ _ hb
    | tail _ hb ih => exact ih.trans (hstep _ _ hb)
  exact absurd (hlt a ha) (lt_irrefl _)

def upwards : List String :=
  ["x.Dog", "x.Cat", "x.Animal", "x.Pet", "java.lang.IllegalArgumentException", "java.lang.IllegalStateException",
    "java.lang.NullPointerException", "java.lang.ClassCastException", "java.lang.ArithmeticException",
    "java.lang.IndexOutOfBoundsException", "java.lang.RuntimeException", "java.io.IOException", "java.lang.Exception",
    "java.lang.Error", Ty.throwableClass, "java.lang.Integer", "java.lang.Long", "java.lang.Float", "java.lang.Double",
    "java.lang.Short", "java.lang.Byte", "java.lang.Number", Ty.stringClass, "java.lang.StringBuilder",
    "java.lang.Boolean", "java.lang.Character", "java.lang.CharSequence", "java.lang.Comparable", "java.io.Serializable",
    Ty.objectClass]

/-- Dogs and cats are animals, and each of them is a pet. -/
def pets : Hierarchy :=
  ⟨[⟨"x.Animal", none, []⟩, ⟨"x.Dog", some "x.Animal", ["x.Pet"]⟩, ⟨"x.Cat", some "x.Animal", ["x.Pet"]⟩,
    ⟨"x.Pet", none, []⟩]⟩

def strangers : Hierarchy := ⟨[⟨"x.Dog", none, ["x.Pet"]⟩, ⟨"x.Cat", none, ["x.Pet"]⟩, ⟨"x.Pet", none, []⟩]⟩

/-- Nothing that both are is directly below the animals. -/
theorem nearest_iff_pets :
    pets.Acyclic ∧ pets.common? "x.Dog" "x.Cat" = some "x.Animal" ∧ pets.Nearest "x.Dog" "x.Cat" "x.Animal" := by
  have hacyclic : pets.Acyclic := acyclic_of_rank upwards.idxOf (by decide +kernel)
  have hc : pets.common? "x.Dog" "x.Cat" = some "x.Animal" := by decide +kernel
  refine ⟨hacyclic, hc, (nearest_iff hacyclic hc).1.mpr (.inr fun d hdog hcat hbelow => ?_)⟩
  have hnone : ∀ d ∈ pets.reached "x.Dog", d ∈ pets.reached "x.Cat" → "x.Animal" ∉ pets.above d := by decide +kernel
  rcases hbelow with hstep | ⟨hroot, -⟩
  · exact absurd hstep (hnone d (mem_reached.mpr hdog) (mem_reached.mpr hcat))
  · exact absurd hroot (by decide)

/-- Super classes are met before interfaces, so the root is found where an interface is shared. -/
theorem not_nearest_strangers :
    strangers.Acyclic ∧ strangers.common? "x.Dog" "x.Cat" = some Ty.objectClass ∧
      ¬ strangers.Nearest "x.Dog" "x.Cat" Ty.objectClass := by
  refine ⟨acyclic_of_rank upwards.idxOf (by decide +kernel), by decide +kernel, fun hnearest => ?_⟩
  have hdog : "x.Pet" ∈ strangers.reached "x.Dog" := by decide +kernel
  have hcat : "x.Pet" ∈ strangers.reached "x.Cat" := by decide +kernel
  exact absurd (hnearest "x.Pet" (mem_reached.mp hdog) (mem_reached.mp hcat) (isSubtype_root _ _)) (by decide)

end JavaLift.Hierarchy
