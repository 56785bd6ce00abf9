import JavaLift.Hierarchy.Basic
import JavaLift.Proofs.ClassFile.SeedOrder
import JavaLift.Proofs.Load

namespace JavaLift

/-- What is recorded where an exception is taken: what is caught, and the type of the register that gets it. -/
def Insn.caught? (i : Insn) : Option (Option Ty × Option Ty) :=
  match i.op with
  | .moveException caught => some (caught, i.result.map (·.type))
  | _ => none

def Insn.taking (i : Insn) (caught : Option Ty) : Option (Option Ty × Option Ty) :=
  match i.op with
  | .moveException _ => some (caught, i.result.map fun r => caught.getD r.type)
  | _ => none

def MethodBody.caughtAt (body : MethodBody) (target : Nat) : Option (Option Ty × Option Ty) :=
  (body.insns.find? fun i => i.offset == target).bind Insn.caught?

def TryRange.Alike (t u : TryRange) : Prop := u.start = t.start ∧ u.stop = t.stop ∧ t.handlers.Perm u.handlers

/-- The same ranges with the same handlers, both in another order. -/
def Reordering (tries tries' : List TryRange) : Prop := ∃ ts, tries.Perm ts ∧ ts.Forall₂ TryRange.Alike tries'

/-- An exception of the entry's type can be given to a register of the recorded one. -/
def Admits (h : Hierarchy) : (recorded entry : Option Ty) → Prop
  | none, _ => True
  | some t, none => t = .object Ty.throwableClass
  | some t, some u => t = u ∨ ∃ a b, t = .object a ∧ u = .object b ∧ h.isSubtype b a = true

/-- Two entries for one handler say the same. In Dalvik code one without a type says no less than one for the class of
all exceptions. -/
def Format.Agree (f : Format) (x y : Option Ty) : Prop :=
  x = y ∨ f = .dalvik ∧ (x = none ∧ y = some (.object Ty.throwableClass) ∨
    x = some (.object Ty.throwableClass) ∧ y = none)

theorem Format.Agree.symm {f : Format} {x y : Option Ty} (hagree : f.Agree x y) : f.Agree y x :=
  hagree.imp Eq.symm fun ⟨hf, h⟩ => ⟨hf, h.symm.imp And.symm And.symm⟩

theorem Format.Agree.admits {f : Format} {t : Ty} {y : Option Ty} (h : Hierarchy) (hagree : f.Agree (some t) y) :
    Admits h (some t) y := by
  obtain rfl | ⟨-, ⟨hnone, -⟩ | ⟨ht, rfl⟩⟩ := hagree
  · exact .inl rfl
  · cases hnone
  · exact Option.some.inj ht

namespace Reordering

variable {tries tries' : List TryRange}

theorem perm (h : Reordering tries tries') : (tries.flatMap (·.handlers)).Perm (tries'.flatMap (·.handlers)) := by
  obtain ⟨ts, hperm, halike⟩ := h
  refine (hperm.flatMap_right _).trans ?_
  clear hperm
  induction halike with
  | nil => exact .refl _
  | cons h _ ih => exact h.2.2.append ih

theorem refl (tries : List TryRange) : Reordering tries tries :=
  ⟨tries, .refl _, List.forall₂_same.mpr fun _ _ => ⟨rfl, rfl, .refl _⟩⟩

/-- Every entry comes first in some order. -/
theorem exists_first {x : Handler} (hx : x ∈ tries.flatMap (·.handlers)) :
    ∃ tries', Reordering tries tries' ∧ (tries'.flatMap (·.handlers)).head? = some x := by
  obtain ⟨t, ht, hxt⟩ := List.mem_flatMap.mp hx
  obtain ⟨before, after, rfl⟩ := List.append_of_mem ht
  obtain ⟨first, rest, hsplit⟩ := List.append_of_mem hxt
  refine ⟨{ t with handlers := x :: (first ++ rest) } :: (before ++ after), ⟨t :: (before ++ after), List.perm_middle,
    .cons ⟨rfl, rfl, ?_⟩ (List.forall₂_same.mpr fun _ _ => ⟨rfl, rfl, .refl _⟩)⟩, rfl⟩
  exact hsplit ▸ List.perm_middle

end Reordering

namespace RawCode

def withTries (code : RawCode) (tries : List TryRange) : RawCode := { code with tries := tries }

variable {code : RawCode} {s : Signature} {pool : Pool} {body : MethodBody} {tries' : List TryRange} {target : Nat}

/-- The entry that decides what is recorded at a handler: in Dalvik code the first one with a type, in a class file the
first one. -/
def recordedAt (code : RawCode) (target : Nat) : Option Ty :=
  match code.format with
  | .dalvik => (code.handlers.filter fun h => h.target == target).findSome? (·.exception)
  | .classFile => (code.handlers.find? fun h => h.target == target).bind (·.exception)

theorem recordedAt_dalvik (code : RawCode) (h : code.format = .dalvik) (target : Nat) :
    code.recordedAt target = (code.handlers.filter fun h => h.target == target).findSome? (·.exception) := by
  rw [recordedAt, h]

theorem recordedAt_classFile (code : RawCode) (h : code.format = .classFile) (target : Nat) :
    code.recordedAt target = (code.handlers.find? fun h => h.target == target).bind (·.exception) := by
  rw [recordedAt, h]

/-- Where the entries for a handler agree, what is recorded is what any of them with a type says. -/
theorem recordedAt_eq_some (code : RawCode) {t : Ty} (hagree : ∀ x ∈ code.handlers, ∀ y ∈ code.handlers, x.target = target →
    y.target = target → code.format.Agree x.exception y.exception) :
    code.recordedAt target = some t ↔ ∃ x ∈ code.handlers, x.target = target ∧ x.exception = some t := by
  have hequal {x y : Handler} {u : Ty} (hx : x ∈ code.handlers) (hxt : x.target = target) (hy : y ∈ code.handlers)
      (hyt : y.target = target) (hxu : x.exception = some u) (hyt : y.exception = some t) : u = t := by
    have h := hagree x hx y hy ‹_› ‹_›
    simpa [Format.Agree, hxu, hyt] using h
  cases hformat : code.format with
  | dalvik =>
      rw [recordedAt_dalvik code hformat]
      refine ⟨fun h => ?_, fun ⟨x, hx, hxt, hexc⟩ => ?_⟩
      · obtain ⟨x, hx, hexc⟩ := List.exists_of_findSome?_eq_some h
        obtain ⟨hx, hxt⟩ := List.mem_filter.mp hx
        exact ⟨x, hx, beq_iff_eq.mp hxt, hexc⟩
      · cases hfound : (code.handlers.filter fun h => h.target == target).findSome? (·.exception) with
        | none =>
            have hnone := List.findSome?_eq_none_iff.mp hfound x (List.mem_filter.mpr ⟨hx, by simpa using hxt⟩)
            rw [hexc] at hnone
            cases hnone
        | some u =>
            obtain ⟨y, hy, hyu⟩ := List.exists_of_findSome?_eq_some hfound
            obtain ⟨hy, hyt⟩ := List.mem_filter.mp hy
            rw [hequal hy (beq_iff_eq.mp hyt) hx hxt hyu hexc]
  | classFile =>
      rw [recordedAt_classFile code hformat]
      refine ⟨fun h => ?_, fun ⟨x, hx, hxt, hexc⟩ => ?_⟩
      · obtain ⟨x, hfind, hexc⟩ := Option.bind_eq_some_iff.mp h
        have hxt := List.find?_some hfind
        exact ⟨x, List.mem_of_find?_eq_some hfind, beq_iff_eq.mp hxt, hexc⟩
      · obtain ⟨y, hy⟩ : ∃ y, code.handlers.find? (fun h : Handler => h.target == target) = some y :=
          Option.isSome_iff_exists.mp (List.find?_isSome.mpr ⟨x, hx, by simpa using hxt⟩)
        have hyt := List.find?_some hy
        have h := hagree y (List.mem_of_find?_eq_some hy) x hx (beq_iff_eq.mp hyt) hxt
        rw [hy, Option.bind_some, ← hexc]
        simpa [Format.Agree, hformat] using h

theorem checkTry_eq_ok {length : Nat} {t : TryRange} :
    checkTry length t = .ok () ↔ t.start < t.stop ∧ t.stop ≤ length ∧ ∀ h ∈ t.handlers, h.target < length := by
  unfold checkTry
  by_cases hspan : t.stop ≤ t.start ∨ length < t.stop
  · rw [if_pos hspan]
    exact ⟨nofun, fun h => by omega⟩
  · rw [if_neg hspan]
    cases hfind : t.handlers.find? fun h => length ≤ h.target with
    | some h =>
        have hout := List.find?_some hfind
        refine ⟨nofun, fun hall => ?_⟩
        have := hall.2.2 h (List.mem_of_find?_eq_some hfind)
        simp at hout
        omega
    | none =>
        refine ⟨fun _ => ⟨by omega, by omega, fun h hh => ?_⟩, fun _ => rfl⟩
        simpa using List.find?_eq_none.mp hfind h hh

/-- Whether the ranges lie within the code does not depend on their order. -/
theorem forM_checkTry {length : Nat} (hr : Reordering code.tries tries') (h : code.tries.forM (checkTry length) = .ok ()) :
    tries'.forM (checkTry length) = .ok () := by
  rw [forM_eq_ok] at h ⊢
  obtain ⟨ts, hperm, halike⟩ := hr
  have hts : ∀ t ∈ ts, checkTry length t = .ok () := fun t ht => h t (hperm.mem_iff.mpr ht)
  clear h hperm
  induction halike with
  | nil => nofun
  | cons halike _ ih =>
      rw [List.forall_mem_cons] at hts ⊢
      obtain ⟨hstart, hstop, hperm⟩ := halike
      refine ⟨checkTry_eq_ok.mpr ?_, ih hts.2⟩
      obtain ⟨hspan, hle, hin⟩ := checkTry_eq_ok.mp hts.1
      exact ⟨hstart ▸ hstop ▸ hspan, hstop ▸ hle, fun x hx => hin x (hperm.mem_iff.mpr hx)⟩

def mark (h : Handler) (i : Insn) : Insn :=
  match i.op, h.exception with
  | .moveException none, some t =>
    { i with op := .moveException (some t), result := i.result.map fun r => { r with type := t } }
  | _, _ => i

theorem offset_mark (h : Handler) (i : Insn) : (mark h i).offset = i.offset := by
  unfold mark
  split <;> rfl

theorem markHandler_cons (h : Handler) (i : Insn) (rest : List Insn) :
    markHandler h (i :: rest) = if i.offset = h.target then mark h i :: rest else i :: markHandler h rest := rfl

theorem find?_markHandler (h : Handler) (insns : List Insn) :
    (markHandler h insns).find? (fun i => i.offset == target) =
      if h.target = target then (insns.find? fun i => i.offset == target).map (mark h)
      else insns.find? fun i => i.offset == target := by
  induction insns with
  | nil => simp [markHandler]
  | cons i rest ih =>
      rw [markHandler_cons]
      by_cases hi : i.offset = h.target
      · rw [if_pos hi]
        by_cases ht : h.target = target
        · simp [offset_mark, hi, ht]
        · simp [offset_mark, hi, ht]
      · rw [if_neg hi]
        by_cases ht : i.offset = target
        · have hne : h.target ≠ target := fun heq => hi (ht.trans heq.symm)
          simp [ht, hne]
        · simp only [List.find?_cons, beq_false_of_ne ht, ih]

theorem find?_markHandlers (hs : List Handler) (insns : List Insn) :
    (hs.foldl (fun insns h => markHandler h insns) insns).find? (fun i => i.offset == target) =
      (insns.find? fun i => i.offset == target).map fun i =>
        (hs.filter fun h => h.target == target).foldl (fun i h => mark h i) i := by
  induction hs generalizing insns with
  | nil => simp
  | cons h hs ih =>
      rw [List.foldl_cons, ih, find?_markHandler]
      by_cases ht : h.target = target
      · rw [if_pos ht, Option.map_map, List.filter_cons_of_pos (by simpa using ht)]
        rfl
      · rw [if_neg ht, List.filter_cons_of_neg (by simpa using ht)]

/-- The first entry with a type marks an instruction that does not know what it catches, and no later one does. -/
theorem caught?_marks {i : Insn} (hs : List Handler) (hi : Dalvik.Unmarked i) :
    (hs.foldl (fun i h => mark h i) i).caught? = i.taking (hs.findSome? (·.exception)) := by
  have hkept {i : Insn} (hs : List Handler) (hop : i.op ≠ .moveException none) : hs.foldl (fun i h => mark h i) i = i := by
    induction hs with
    | nil => rfl
    | cons h hs ih =>
        have hsame : mark h i = i := by
          unfold mark
          split
          · rename_i heq _
            exact absurd heq hop
          · rfl
        rw [List.foldl_cons, hsame, ih]
  by_cases hop : i.op = .moveException none
  · induction hs with
    | nil => simp [Insn.caught?, Insn.taking, hop]
    | cons h hs ih =>
        rw [List.foldl_cons]
        cases hexc : h.exception with
        | none =>
            have hsame : mark h i = i := by simp [mark, hop, hexc]
            rw [hsame, ih, List.findSome?_cons, hexc]
        | some t =>
            rw [hkept hs (by simp [mark, hop, hexc])]
            simp [Insn.caught?, Insn.taking, mark, hop, hexc, Function.comp_def]
  · rw [hkept hs hop]
    unfold Insn.caught? Insn.taking
    split
    · rename_i caught heq
      exact absurd (hi caught heq ▸ heq) hop
    · rfl

/-- What the class file decoder is told of a handler is what its first entry catches. -/
theorem lookup_handlerEntries (code : RawCode) (target : Nat) :
    code.handlerEntries.lookup target = (code.handlers.find? fun h => h.target == target).map (·.exception) := by
  have hfold (hs : List Handler) (known : ClassFile.Handlers) :
      (hs.foldl (fun known h => if (known.lookup h.target).isSome then known else known ++ [(h.target, h.exception)])
        known).lookup target =
        (known.lookup target).or ((hs.find? fun h => h.target == target).map (·.exception)) := by
    induction hs generalizing known with
    | nil => simp
    | cons h hs ih =>
        rw [List.foldl_cons, ih]
        by_cases ht : h.target = target
        · subst ht
          cases hknown : known.lookup h.target <;> simp [hknown, List.lookup_append]
        · have hne : (target == h.target) = false := beq_false_of_ne (Ne.symm ht)
          have hne' : (h.target == target) = false := beq_false_of_ne ht
          rw [List.find?_cons, hne']
          split <;> simp [List.lookup_append, List.lookup_cons, hne]
  exact hfold code.handlers []

theorem mem_handlerEntries (code : RawCode) (target : Nat) :
    target ∈ code.handlerEntries.map Prod.fst ↔ ∃ x ∈ code.handlers, x.target = target := by
  have hsome : target ∈ code.handlerEntries.map Prod.fst ↔ (code.handlerEntries.lookup target).isSome := by
    refine ⟨fun h => ?_, fun h => ?_⟩
    · obtain ⟨⟨_, caught⟩, hmem, rfl⟩ := List.mem_map.mp h
      exact Assoc.isSome_lookup hmem
    · obtain ⟨caught, hcaught⟩ := Option.isSome_iff_exists.mp h
      exact List.mem_map.mpr ⟨_, Assoc.mem_of_lookup hcaught, rfl⟩
  rw [hsome, lookup_handlerEntries]
  simp

theorem caughtAt_attachLines (body : MethodBody) (lines : List LineEntry) (target : Nat) :
    { body with insns := attachLines lines body.insns }.caughtAt target = body.caughtAt target := by
  simp only [MethodBody.caughtAt, attachLines, List.find?_map, Function.comp_def]
  cases body.insns.find? fun i => i.offset == target <;> rfl

/-- What is recorded at a handler, given the entry that decides: nothing where no exception is taken. -/
def IsTaker (taker : Option Ty → Option (Option Ty × Option Ty)) : Prop :=
  (∀ r, taker r = none) ∨ ∀ r, ∃ type, taker r = some (r, type)

theorem isTaker_taking (i? : Option Insn) : IsTaker fun r => i?.bind (·.taking r) := by
  cases i? with
  | none => exact .inl fun _ => rfl
  | some i =>
      simp only [IsTaker, Option.bind_some, Insn.taking]
      split
      · exact .inr fun r => ⟨_, rfl⟩
      · exact .inl fun _ => rfl

theorem exists_takers_dalvik (hformat : code.format = .dalvik) (h : code.loadDalvik s pool = .ok body) :
    ∃ takers : Nat → Option Ty → Option (Option Ty × Option Ty), (∀ target, IsTaker (takers target)) ∧
      ∀ tries', ∃ body', (code.withTries tries').loadDalvik s pool = .ok body' ∧
        body'.tries = tries' ∧ body'.length = body.length ∧ ∀ target,
          body'.caughtAt target = takers target ((code.withTries tries').recordedAt target) := by
  obtain ⟨units, hunits, h⟩ := bind_eq_ok.mp h
  obtain ⟨insns, hinsns, h⟩ := bind_eq_ok.mp h
  by_cases hregisters : code.registers < s.inputRegisters
  · rw [if_pos hregisters] at h
    cases h
  rw [if_neg hregisters] at h
  cases h
  refine ⟨fun target r => (insns.find? fun i => i.offset == target).bind (·.taking r), fun _ => isTaker_taking _,
    fun tries' => ⟨_, bind_eq_ok.mpr ⟨units, hunits, bind_eq_ok.mpr ⟨insns, hinsns, if_neg hregisters⟩⟩, rfl, rfl,
      fun target => ?_⟩⟩
  simp only [MethodBody.caughtAt, find?_markHandlers]
  rw [recordedAt_dalvik (code.withTries tries') hformat]
  cases hfind : insns.find? fun i => i.offset == target with
  | none => rfl
  | some i =>
      have hunmarked := Dalvik.decodeAll_unmarked hinsns i (List.mem_of_find?_eq_some hfind)
      exact caught?_marks _ hunmarked

theorem exists_takers_classFile (hformat : code.format = .classFile) (h : code.loadClassFile s pool = .ok body)
    (hin : ∀ x ∈ code.handlers, x.target < body.length) :
    ∃ taker, IsTaker taker ∧ ∀ tries', Reordering code.tries tries' →
      ∃ body', (code.withTries tries').loadClassFile s pool = .ok body' ∧
        body'.tries = tries' ∧ body'.length = body.length ∧ ∀ x ∈ code.handlers,
          body'.caughtAt x.target = taker ((code.withTries tries').recordedAt x.target) := by
  unfold loadClassFile at h
  by_cases hregisters : code.registers < s.inputRegisters
  · rw [if_pos hregisters] at h
    cases h
  rw [if_neg hregisters] at h
  obtain ⟨registers, hcount, h⟩ := bind_eq_ok.mp h
  obtain ⟨insns, hinsns, h⟩ := bind_eq_ok.mp h
  cases h
  refine ⟨fun r => some (r, some (r.getD (.object Ty.throwableClass))), .inr fun r => ⟨_, rfl⟩, fun tries' hr => ?_⟩
  have hkeys (target : Nat) : target ∈ (code.withTries tries').handlerEntries.map Prod.fst ↔
      target ∈ code.handlerEntries.map Prod.fst := by
    rw [mem_handlerEntries, mem_handlerEntries]
    exact exists_congr fun y => and_congr_left fun _ => hr.perm.mem_iff.symm
  obtain ⟨insns', hinsns'⟩ := ClassFile.exists_decodeAll hkeys hinsns
  refine ⟨_, (if_neg hregisters).trans (bind_eq_ok.mpr ⟨registers, hcount, bind_eq_ok.mpr ⟨insns', hinsns', rfl⟩⟩),
    rfl, rfl, fun x hx => ?_⟩
  have hmem : x ∈ (code.withTries tries').handlers := hr.perm.mem_iff.mp hx
  obtain ⟨y, hy⟩ : ∃ y, (code.withTries tries').handlers.find? (fun h : Handler => h.target == x.target) = some y :=
    Option.isSome_iff_exists.mp (List.find?_isSome.mpr ⟨x, hmem, beq_self_eq_true x.target⟩)
  have hlookup := lookup_handlerEntries (code.withTries tries') x.target
  rw [hy] at hlookup
  have hrecorded : (code.withTries tries').recordedAt x.target = y.exception := by
    rw [recordedAt_classFile (code.withTries tries') hformat, hy]
    rfl
  simp only [MethodBody.caughtAt, ClassFile.find?_handler hinsns' (Nat.zero_lt_of_lt (hin x hx)) hlookup, hrecorded]
  rfl

/-- A loaded method before its ranges are checked and its lines attached. -/
def decode (code : RawCode) (s : Signature) (pool : Pool) : Except DecodeFault MethodBody :=
  match code.format with
  | .dalvik => code.loadDalvik s pool
  | .classFile => code.loadClassFile s pool

theorem decode_dalvik (code : RawCode) (h : code.format = .dalvik) : code.decode s pool = code.loadDalvik s pool := by
  rw [decode, h]

theorem decode_classFile (code : RawCode) (h : code.format = .classFile) :
    code.decode s pool = code.loadClassFile s pool := by
  rw [decode, h]

theorem load_eq_ok : code.load s pool = .ok body ↔ ∃ loaded, code.decode s pool = .ok loaded ∧
    loaded.tries.forM (checkTry loaded.length) = .ok () ∧
      body = { loaded with insns := attachLines code.lines loaded.insns } := by
  unfold load decode
  cases code.format
  all_goals
    refine bind_eq_ok.trans (exists_congr fun loaded => and_congr_right fun _ => bind_eq_ok.trans ?_)
    refine ⟨fun ⟨_, hcheck, heq⟩ => ⟨hcheck, (Except.ok.inj heq).symm⟩, fun ⟨hcheck, heq⟩ => ⟨(), hcheck, ?_⟩⟩
    rw [heq]
    rfl

theorem decode_tries (h : code.decode s pool = .ok body) : body.tries = code.tries := by
  unfold decode at h
  cases hformat : code.format <;> rw [hformat] at h
  · obtain ⟨_, -, h⟩ := bind_eq_ok.mp h
    obtain ⟨_, -, h⟩ := bind_eq_ok.mp h
    split_ifs at h
    · cases h
    · cases h
      rfl
  · simp only [loadClassFile] at h
    split_ifs at h
    · cases h
    · obtain ⟨_, -, h⟩ := bind_eq_ok.mp h
      obtain ⟨_, -, h⟩ := bind_eq_ok.mp h
      cases h
      rfl

/-- Code can be loaded with its handlers in any order. What is recorded at one depends on the order only by the entry
that decides, as `takers` says. -/
structure Records (code : RawCode) (s : Signature) (pool : Pool)
    (takers : Nat → Option Ty → Option (Option Ty × Option Ty)) : Prop where
  taker : ∀ target, IsTaker (takers target)
  exists_load : ∀ tries', Reordering code.tries tries' → ∃ body', (code.withTries tries').load s pool = .ok body'
  caughtAt : ∀ tries' body', Reordering code.tries tries' → (code.withTries tries').load s pool = .ok body' →
    ∀ x ∈ code.handlers, body'.caughtAt x.target = takers x.target ((code.withTries tries').recordedAt x.target)

theorem exists_takers (h : code.load s pool = .ok body) : ∃ takers, code.Records s pool takers := by
  obtain ⟨loaded, hloaded, hcheck, -⟩ := load_eq_ok.mp h
  rw [decode_tries hloaded] at hcheck
  have hin : ∀ x ∈ code.handlers, x.target < loaded.length := fun x hx => by
    obtain ⟨t, ht, hxt⟩ := List.mem_flatMap.mp hx
    exact (checkTry_eq_ok.mp (forM_eq_ok.mp hcheck t ht)).2.2 x hxt
  obtain ⟨takers, htakers, hall⟩ : ∃ takers : Nat → Option Ty → Option (Option Ty × Option Ty),
      (∀ target, IsTaker (takers target)) ∧ ∀ tries', Reordering code.tries tries' →
        ∃ loaded', (code.withTries tries').decode s pool = .ok loaded' ∧ loaded'.tries = tries' ∧
          loaded'.length = loaded.length ∧ ∀ x ∈ code.handlers,
            loaded'.caughtAt x.target = takers x.target ((code.withTries tries').recordedAt x.target) := by
    cases hformat : code.format with
    | dalvik =>
        obtain ⟨takers, htakers, hall⟩ := exists_takers_dalvik hformat ((decode_dalvik code hformat).symm.trans hloaded)
        refine ⟨takers, htakers, fun tries' _ => ?_⟩
        obtain ⟨loaded', hloaded', htries, hlength, hcaught⟩ := hall tries'
        exact ⟨loaded', (decode_dalvik (code.withTries tries') hformat).trans hloaded', htries, hlength,
          fun x _ => hcaught x.target⟩
    | classFile =>
        obtain ⟨taker, htaker, hall⟩ :=
          exists_takers_classFile hformat ((decode_classFile code hformat).symm.trans hloaded) hin
        refine ⟨fun _ => taker, fun _ => htaker, fun tries' hr => ?_⟩
        obtain ⟨loaded', hloaded', hrest⟩ := hall tries' hr
        exact ⟨loaded', (decode_classFile (code.withTries tries') hformat).trans hloaded', hrest⟩
  have hload (tries' : List TryRange) (hr : Reordering code.tries tries') : ∃ body',
      (code.withTries tries').load s pool = .ok body' ∧ ∀ x ∈ code.handlers,
        body'.caughtAt x.target = takers x.target ((code.withTries tries').recordedAt x.target) := by
    obtain ⟨loaded', hloaded', htries, hlength, hcaught⟩ := hall tries' hr
    refine ⟨_, load_eq_ok.mpr ⟨loaded', hloaded', ?_, rfl⟩, fun x hx =>
      (caughtAt_attachLines _ _ _).trans (hcaught x hx)⟩
    rw [htries, hlength]
    exact forM_checkTry hr hcheck
  refine ⟨takers, htakers, fun tries' hr => (hload tries' hr).imp fun _ h => h.1, fun tries' body' hr hbody => ?_⟩
  obtain ⟨body'', hbody', hcaught⟩ := hload tries' hr
  cases hbody.symm.trans hbody'
  exact hcaught

/-- Nothing about a handler depends on the order of the table, and what is recorded admits all entries for it. -/
def Settled (h : Hierarchy) (code : RawCode) (s : Signature) (pool : Pool) (body : MethodBody) : Prop :=
  ∀ tries' body', Reordering code.tries tries' → (code.withTries tries').load s pool = .ok body' →
    ∀ x ∈ code.handlers, body'.caughtAt x.target = body.caughtAt x.target ∧
      ∀ recorded type, body'.caughtAt x.target = some (recorded, type) → Admits h recorded x.exception

/-- An entry that decides if it comes first: one with a type, and in a class file one without a type too. -/
def Decides (code : RawCode) (x : Handler) : Prop := code.format = .classFile ∨ x.exception ≠ none

theorem recordedAt_of_head? (code : RawCode) {x : Handler} (h : code.handlers.head? = some x) (hx : code.Decides x) :
    code.recordedAt x.target = x.exception := by
  obtain ⟨rest, hrest⟩ := List.head?_eq_some_iff.mp h
  cases hformat : code.format with
  | dalvik =>
      obtain ⟨t, ht⟩ := Option.ne_none_iff_exists'.mp (hx.resolve_left (by simp [hformat]))
      rw [recordedAt_dalvik code hformat, hrest]
      simp [ht]
  | classFile =>
      rw [recordedAt_classFile code hformat, hrest]
      simp

/-- Where the entries for a handler agree, the order of the table does not show in what is recorded. -/
theorem recordedAt_withTries (hr : Reordering code.tries tries') (hagree : ∀ x ∈ code.handlers, ∀ y ∈ code.handlers,
    x.target = target → y.target = target → code.format.Agree x.exception y.exception) :
    (code.withTries tries').recordedAt target = code.recordedAt target := by
  have hmem (z : Handler) : z ∈ (code.withTries tries').handlers ↔ z ∈ code.handlers := hr.perm.mem_iff.symm
  ext t
  rw [recordedAt_eq_some code hagree, recordedAt_eq_some (code.withTries tries') fun x hx y hy =>
    hagree x ((hmem x).mp hx) y ((hmem y).mp hy)]
  simp only [hmem]

section Settling

variable {h : Hierarchy} {takers : Nat → Option Ty → Option (Option Ty × Option Ty)} {x y : Handler}

/-- An entry that decides is what is recorded, and it admits the others for its handler: it comes first in some order. -/
theorem Settled.first (hsettled : Settled h code s pool body) (hrecords : code.Records s pool takers)
    (htakes : ∀ r, ∃ type, takers x.target r = some (r, type)) (hx : x ∈ code.handlers) (hdecides : code.Decides x) :
    (body.caughtAt x.target).map Prod.fst = some x.exception ∧
      ∀ y ∈ code.handlers, y.target = x.target → Admits h x.exception y.exception := by
  obtain ⟨tries', hr, hhead⟩ := Reordering.exists_first hx
  obtain ⟨body', hload'⟩ := hrecords.exists_load tries' hr
  obtain ⟨type, htype⟩ := htakes x.exception
  have hbody' : body'.caughtAt x.target = some (x.exception, type) := by
    rw [hrecords.caughtAt tries' body' hr hload' x hx, recordedAt_of_head? (code.withTries tries') hhead hdecides, htype]
  refine ⟨?_, fun y hy hyx => (hsettled tries' body' hr hload' y hy).2 x.exception type (hyx ▸ hbody')⟩
  rw [← (hsettled tries' body' hr hload' x hx).1, hbody', Option.map_some]

/-- Where an entry does not decide, one that decides has to admit everything. -/
theorem Settled.agree_of_decides (hsettled : Settled h code s pool body) (hrecords : code.Records s pool takers)
    (htakes : ∀ r, ∃ type, takers x.target r = some (r, type)) (hx : x ∈ code.handlers) (hy : y ∈ code.handlers)
    (heq : x.target = y.target) (hxd : code.Decides x) (hyd : ¬code.Decides y) :
    code.format.Agree x.exception y.exception := by
  obtain ⟨hformat, hnone⟩ := not_or.mp hyd
  have hadmits := (hsettled.first hrecords htakes hx hxd).2 y hy heq.symm
  obtain ⟨t, ht⟩ := Option.ne_none_iff_exists'.mp (hxd.resolve_left hformat)
  rw [ht, not_not.mp hnone] at hadmits
  refine .inr ⟨?_, .inr ⟨ht.trans (congrArg some hadmits), not_not.mp hnone⟩⟩
  cases hf : code.format with
  | dalvik => rfl
  | classFile => exact absurd hf hformat

theorem Settled.agree (hsettled : Settled h code s pool body) (hrecords : code.Records s pool takers)
    (htakes : ∀ r, ∃ type, takers x.target r = some (r, type)) (hx : x ∈ code.handlers) (hy : y ∈ code.handlers)
    (heq : x.target = y.target) : code.format.Agree x.exception y.exception := by
  by_cases hxd : code.Decides x <;> by_cases hyd : code.Decides y
  · have hfirst := (hsettled.first hrecords htakes hx hxd).1
    rw [heq] at hfirst
    exact .inl (Option.some.inj (hfirst.symm.trans (hsettled.first hrecords (heq ▸ htakes) hy hyd).1))
  · exact hsettled.agree_of_decides hrecords htakes hx hy heq hxd hyd
  · exact (hsettled.agree_of_decides hrecords (heq ▸ htakes) hy hx heq.symm hyd hxd).symm
  · exact .inl ((not_not.mp (not_or.mp hxd).2).trans (not_not.mp (not_or.mp hyd).2).symm)

theorem Records.settled (hrecords : code.Records s pool takers) (hload : code.load s pool = .ok body)
    (hagree : ∀ x ∈ code.handlers, ∀ y ∈ code.handlers, x.target = y.target → body.caughtAt x.target ≠ none →
      code.format.Agree x.exception y.exception) : Settled h code s pool body := by
  intro tries' body' hr hload' x hx
  rw [hrecords.caughtAt tries' body' hr hload' x hx, hrecords.caughtAt code.tries body (.refl _) hload x hx]
  obtain hnone | hsome := hrecords.taker x.target
  · simp [hnone]
  have hall : ∀ z ∈ code.handlers, ∀ w ∈ code.handlers, z.target = x.target → w.target = x.target →
      code.format.Agree z.exception w.exception := by
    intro z hz w hw hzx hwx
    refine hagree z hz w hw (hzx.trans hwx.symm) fun hnone => ?_
    obtain ⟨type, htype⟩ := hsome (code.recordedAt x.target)
    rw [hzx, hrecords.caughtAt code.tries body (.refl _) hload x hx] at hnone
    cases htype.symm.trans hnone
  rw [recordedAt_withTries hr hall]
  refine ⟨rfl, fun recorded type htype => ?_⟩
  obtain ⟨type', htype'⟩ := hsome (code.recordedAt x.target)
  cases htype.symm.trans htype'
  cases hdecided : code.recordedAt x.target with
  | none => trivial
  | some t =>
      obtain ⟨z, hz, hzx, hzt⟩ := (recordedAt_eq_some code hall).mp hdecided
      exact (hzt ▸ hall z hz x hx hzx rfl).admits h

end Settling

/-- The order of the table decides nothing exactly if the entries for one handler that takes an exception agree. -/
theorem handlers_settled_iff (h : Hierarchy) (hload : code.load s pool = .ok body) :
    (∀ tries', Reordering code.tries tries' → ∃ body', (code.withTries tries').load s pool = .ok body') ∧
      (Settled h code s pool body ↔ ∀ x ∈ code.handlers, ∀ y ∈ code.handlers, x.target = y.target →
        body.caughtAt x.target ≠ none → code.format.Agree x.exception y.exception) := by
  obtain ⟨takers, hrecords⟩ := exists_takers hload
  refine ⟨hrecords.exists_load, fun hsettled x hx y hy heq htakes => ?_, hrecords.settled hload⟩
  have hbody := hrecords.caughtAt code.tries body (.refl _) hload x hx
  have hsome := (hrecords.taker x.target).resolve_left fun hnone => htakes (hbody.trans (hnone _))
  exact hsettled.agree hrecords hsome hx hy heq

end RawCode

/-- Does nothing, and returns zero. The two ranges are guarded by one handler, which returns zero too. -/
def guardedBy (first second : Option Ty) : RawCode :=
  ⟨.classFile, 0, 1, #[0x00, 0x03, 0xac, 0x57, 0x03, 0xac], [⟨0, 1, [⟨first, 3⟩]⟩, ⟨1, 3, [⟨second, 3⟩]⟩], []⟩

def exceptionType : Ty := .object "java.lang.Exception"

theorem RawCode.handlers_settled_guardedBy :
    ∃ body, (guardedBy (some exceptionType) (some exceptionType)).load ⟨"a.B", "m", [], .int, ⟨8⟩⟩ (.numbered []) =
      .ok body ∧ ∀ h, Settled h (guardedBy (some exceptionType) (some exceptionType)) ⟨"a.B", "m", [], .int, ⟨8⟩⟩
        (.numbered []) body := by
  have hload : ((guardedBy (some exceptionType) (some exceptionType)).load ⟨"a.B", "m", [], .int, ⟨8⟩⟩
      (.numbered [])).toOption.any (fun _ => true) = true := by
    decide +kernel
  obtain ⟨body, hload, -⟩ := exists_ok_of_any hload
  refine ⟨body, hload, fun h => (RawCode.handlers_settled_iff h hload).2.mpr fun x hx y hy _ _ => .inl ?_⟩
  simp only [RawCode.handlers, guardedBy, List.flatMap_cons, List.flatMap_nil, List.mem_append, List.mem_singleton,
    List.not_mem_nil, or_false, or_self] at hx hy
  rw [hx, hy]

/-- The first entry is recorded, and leaves out what the second one catches. -/
theorem RawCode.not_settled_guardedBy :
    ∃ body, (guardedBy (some exceptionType) none).load ⟨"a.B", "m", [], .int, ⟨8⟩⟩ (.numbered []) = .ok body ∧
      ∀ h, ¬Settled h (guardedBy (some exceptionType) none) ⟨"a.B", "m", [], .int, ⟨8⟩⟩ (.numbered []) body := by
  have hload : ((guardedBy (some exceptionType) none).load ⟨"a.B", "m", [], .int, ⟨8⟩⟩ (.numbered [])).toOption.any
      (fun body => body.caughtAt 3 == some (some exceptionType, some exceptionType)) = true := by
    decide +kernel
  obtain ⟨body, hload, hcaught⟩ := exists_ok_of_any hload
  refine ⟨body, hload, fun h hsettled => ?_⟩
  have hadmits := (hsettled _ body (.refl _) hload ⟨none, 3⟩ (by decide)).2 _ _ (beq_iff_eq.mp hcaught)
  simp [Admits, exceptionType, Ty.throwableClass] at hadmits

end JavaLift
