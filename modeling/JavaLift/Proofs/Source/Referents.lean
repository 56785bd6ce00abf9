import JavaLift.Proofs.Except
import JavaLift.Proofs.Source.WellScoped

namespace JavaLift.Source

inductive Tries (taken : List String) (word : String) : Nat → String → Prop where
  | free {n : Nat} (h : word ++ toString n ∉ taken) : Tries taken word n (word ++ toString n)
  | next {n : Nat} {name : String} (h : word ++ toString n ∈ taken) (rest : Tries taken word (n + 1) name) :
      Tries taken word n name

/-- A word is given as it stands, or with a number if it is taken. -/
def Allocates (taken : List String) (word name : String) : Prop :=
  word ∉ taken ∧ name = word ∨ word ∈ taken ∧ Tries taken word 2 name

theorem tries_of_find? {taken : List String} {word name : String} {start count : Nat}
    (h : ((List.range' start count).map fun i => word ++ toString i).find? (fun name => !taken.contains name) = some name) :
    Tries taken word start name := by
  induction count generalizing start with
  | zero => cases h
  | succ count ih =>
      rw [List.range'_succ, List.map_cons, List.find?_cons] at h
      split at h
      next hfree =>
        cases h
        exact .free (by simpa using hfree)
      next htaken => exact .next (by simpa using htaken) (ih h)

/-- The search for a name ends, with the name that is given. -/
theorem freshName_allocates (taken : List String) (word : String) : Allocates taken word (freshName taken word) := by
  by_cases hword : word ∈ taken
  · refine .inr ⟨hword, ?_⟩
    have hcontains : (!taken.contains word) = false := by simpa using hword
    have hfresh := freshName_fresh taken word
    have hnumbers : (List.range (taken.length + 1)).map (fun i => word ++ toString (i + 2)) =
        (List.range' 2 (taken.length + 1)).map fun i => word ++ toString i := by
      rw [List.range'_eq_map_range, List.map_map]
      exact List.map_congr_left fun i _ => by rw [Function.comp_apply, Nat.add_comm]
    unfold freshName at hfresh ⊢
    simp only [List.find?_cons, hcontains, hnumbers] at hfresh ⊢
    cases hfind : ((List.range' 2 (taken.length + 1)).map fun i => word ++ toString i).find?
        fun name => !taken.contains name with
    | none =>
        rw [hfind] at hfresh
        exact absurd hword hfresh
    | some name => exact tries_of_find? hfind
  · refine .inl ⟨hword, ?_⟩
    have hcontains : (!taken.contains word) = true := by simpa using hword
    unfold freshName
    simp only [List.find?_cons, hcontains, Option.getD_some]

/-- What a name in the text stands for: a variable, which may hold the receiver or an argument, a parameter or a caught
exception that is no variable, or a register that has none. -/
inductive Referent where
  | var (v : Nat)
  | parameter (index : Nat)
  | exception (block : Nat)
  | register (number : Nat)
deriving DecidableEq

inductive Part where
  | text (s : String)
  | name (x : Referent) (s : String)
deriving DecidableEq

def Part.spelled : Part → String
  | .text s => s
  | .name _ s => s

def spellParts (ps : List Part) : String := String.join (ps.map Part.spelled)

@[simp] theorem spellParts_nil : spellParts [] = "" := rfl

@[simp] theorem spellParts_text (s : String) (ps : List Part) : spellParts (.text s :: ps) = s ++ spellParts ps := by
  simp [spellParts, String.join_cons, Part.spelled]

@[simp] theorem spellParts_name (x : Referent) (s : String) (ps : List Part) :
    spellParts (.name x s :: ps) = s ++ spellParts ps := by
  simp [spellParts, String.join_cons, Part.spelled]

@[simp] theorem spellParts_append (ps qs : List Part) : spellParts (ps ++ qs) = spellParts ps ++ spellParts qs := by
  simp [spellParts, String.join_append]

def partsAlong {α : Type} (parts : Draft → α → List Part) (next : Draft → α → Draft) : Draft → List α → List Part
  | _, [] => []
  | d, x :: rest => parts d x ++ partsAlong parts next (next d x) rest

namespace Draft

variable (m : Lifted) (style : Style) (ds : List (Nat × Declaration))

def registerPart (d : Draft) (r : Register) : Part := .name (r.var.elim (.register r.reg) .var) (d.registerName r)

def piecePart (d : Draft) : Piece → Part
  | .text s => .text s
  | .name r => d.registerPart r

def declareParts (d : Draft) (v : Nat) : List Part :=
  [.text ((m.typeOf v).javaName ++ " "), .name (.var v) (d.namer.nameOf v)]

def markedParts (d : Draft) (c : Marked) : List Part :=
  let d := c.phrase.events.foldl (event m) d
  .text (if c.goesOn then "" else lead d.writer) :: c.phrase.pieces.map d.piecePart
    ++ [.text (spell (commentSigns style c.offset c.comment))]

def assignParts (d : Draft) (head : Head) (result : Register) (value : Phrase) : List Part :=
  let d := d.assigned m result value
  let rest : List Part :=
    .text " = " :: value.pieces.map d.piecePart ++ [.text ";", .text (spell (commentSigns style head.offset true))]
  match result.var.filter (d.declaresHere ds) with
  | some v => .text (lead d.writer) :: d.declareParts m v ++ rest
  | none =>
    if head.op == .move && d.registerName result == d.phraseText value then []
    else .text (lead d.writer) :: d.registerPart result :: rest

def declareAtParts (d : Draft) (x : Nat × Declaration) : List Part :=
  let d := d.ensured m x.1
  .text (lead d.writer) :: d.declareParts m x.1 ++ [.text ";"]

def catcherReferent : Catcher → Referent
  | .var v => .var v
  | .block b _ => .exception b

def handlerParts (d : Draft) (type : Ty) (c : Catcher) : List Part :=
  let d := (d.catcher m c).1
  [.text (lead d.writer ++ "\x7d catch (" ++ type.javaName ++ " "), .name (catcherReferent c) (d.caught c).name,
    .text ") \x7b"]

def itemParts (d : Draft) : Item → List Part
  | .line s => [.text (lead d.writer ++ s)]
  | .marked c => d.markedParts m style c
  | .assign head result value => d.assignParts m style ds head result value
  | .handler _ type c => d.handlerParts m type c
  | .label b name => if d.labels.contains b then [] else [.text (lead d.writer ++ name ++ ":")]
  | .openScope id => partsAlong (declareAtParts m) (declareAt m) d (ds.filter fun x => x.2 == .scope id)
  | .indent | .dedent | .closeScope => []

end Draft

namespace Lifted

variable (m : Lifted) (style : Style)

def parameter (i : Nat) : Referent := (m.params[i]?.join).elim (.parameter i) .var

def paramParts : Nat → List (Ty × String) → List Part
  | _, [] => []
  | i, (t, name) :: rest =>
    .text (t.javaName ++ " ") :: .name (m.parameter i) name :: (if rest.isEmpty then [] else [.text ", "])
      ++ paramParts (i + 1) rest

def headParts : List Part :=
  let s := m.signature
  if s.isClassInitializer then [.text (lead style.writer ++ "static")]
  else
    let name := if s.isConstructor then Ty.simpleClassName s.className else s.name
    let ret := if s.isConstructor then "" else s.ret.javaName ++ " "
    .text (lead style.writer ++ (modifiers s.access ++ ret ++ name ++ "("))
      :: m.paramParts 0 (s.params.zip (Survey.entryNames m).2) ++ [.text ")"]

def bodyParts : List Part :=
  partsAlong (Draft.itemParts m style m.survey.declarations) (Draft.item m style m.survey.declarations)
    (m.firstDraft style) m.writtenItems

def parts : List Part :=
  m.headParts style ++ .text " \x7b" :: m.bodyParts style ++ [.text (lead (m.lastDraft style).writer.shallower ++ "\x7d")]

/-- Names in the text that are spelled the same stand for the same. -/
def NamesIdentify : Prop :=
  ∀ x y s, .name x s ∈ m.parts style → .name y s ∈ m.parts style → x = y

end Lifted

theorem spell_along {α : Type} {parts : Draft → α → List Part} {signs : Draft → α → List Sign}
    {next : Draft → α → Draft} (h : ∀ d x, spellParts (parts d x) = spell (signs d x)) (d : Draft) (xs : List α) :
    spellParts (partsAlong parts next d xs) = spell (written signs next d xs) := by
  induction xs generalizing d with
  | nil => rfl
  | cons x xs ih => rw [partsAlong, written, spellParts_append, spell_append, h, ih]

namespace Draft

variable (m : Lifted) (style : Style) (ds : List (Nat × Declaration))

theorem spellParts_pieces (d : Draft) (ps : List Piece) :
    spellParts (ps.map d.piecePart) = spell (ps.map d.pieceSign) := by
  unfold spellParts spell
  rw [List.map_map, List.map_map]
  congr 1
  refine List.map_congr_left fun x _ => ?_
  cases x with
  | text s => rfl
  | name r => exact (d.spelled_pieceSign r).symm

theorem spellParts_register (d : Draft) (r : Register) (ps : List Part) :
    spellParts (d.registerPart r :: ps) = (d.pieceSign (.name r)).spelled ++ spellParts ps := by
  rw [spelled_pieceSign]
  exact spellParts_name _ _ _

theorem spellParts_declare (d : Draft) (v : Nat) : spellParts (d.declareParts m v) = spell (d.declareSigns m v) := by
  simp [declareParts, declareSigns, identifier]

theorem spellParts_item (d : Draft) (x : Item) :
    spellParts (d.itemParts m style ds x) = spell (d.itemSigns m style ds x) := by
  cases x with
  | line s => simp [itemParts, itemSigns, spell_lineSigns]
  | marked c =>
      simp only [itemParts, markedParts, itemSigns, markedSigns, spell_append, spell_phraseSigns, ← spell_pieces]
      cases c.goesOn <;> simp [spellParts_pieces, String.append_assoc]
  | assign head result value =>
      simp only [itemParts, assignParts, itemSigns, assignSigns]
      cases result.var.filter ((d.assigned m result value).declaresHere ds) with
      | some v => simp [spellParts_pieces, spellParts_declare]
      | none =>
          dsimp only
          split_ifs
          · rfl
          · simp [spellParts_pieces, spellParts_register]
  | handler offset type c =>
      have hbrace (s : String) : "\x7d" ++ (" catch (" ++ s) = "\x7d catch (" ++ s := by
        rw [← String.append_assoc]
        rfl
      have hend : (") " : String) ++ "\x7b" = ") \x7b" := rfl
      simp [itemParts, handlerParts, itemSigns, handlerSigns, hbrace, hend, String.append_assoc]
  | label b name =>
      simp only [itemParts, itemSigns]
      split_ifs <;> simp [String.append_assoc]
  | openScope id =>
      refine spell_along (fun d x => ?_) d _
      simp [declareAtParts, declareAtSigns, spellParts_declare]
  | indent | dedent | closeScope => rfl

end Draft

namespace Lifted

variable (m : Lifted) (style : Style)

theorem spellParts_params (n : Namer) (i : Nat) (ps : List (Ty × String)) :
    spellParts (m.paramParts i ps) = spell (paramSigns (ps.map fun p => (p.1, n.identifier p.2))) := by
  induction ps generalizing i with
  | nil => rfl
  | cons p rest ih =>
      rw [paramParts, List.map_cons, paramSigns]
      cases rest <;> simp_all [Namer.identifier]

theorem spellParts_head : spellParts (m.headParts style) = spell (m.headSigns style) := by
  unfold headParts headSigns signatureSigns
  split_ifs <;> simp [m.spellParts_params m.survey.namer, String.append_assoc, *]

theorem spellParts_parts : spellParts (m.parts style) = (m.render style).1.code := by
  rw [← spell_signs, parts, signs]
  simp only [spellParts_append, spell_append, spellParts_head, bodyParts, bodySigns, spellParts_text,
    spell_along (Draft.spellParts_item m style m.survey.declarations)]
  simp [String.append_assoc]

end Lifted

namespace Namer

def Calls (n : Namer) : Referent → String → Prop
  | .var v, s => n.names.lookup v = some s
  | .exception b, s => n.caught.lookup b = some s
  | .parameter _, _ => False
  | .register k, s => s = "r" ++ toString k

structure Grows (n n' : Namer) : Prop where
  proper : ∀ first words, n.Proper first words → n'.Proper first words
  calls : ∀ x s, n.Calls x s → n'.Calls x s

namespace Grows

variable {n n' n'' : Namer}

theorem refl (n : Namer) : n.Grows n := ⟨fun _ _ h => h, fun _ _ h => h⟩

theorem trans (h : n.Grows n') (h' : n'.Grows n'') : n.Grows n'' :=
  ⟨fun first words hn => h'.proper first words (h.proper first words hn), fun x s hx => h'.calls x s (h.calls x s hx)⟩

theorem ensure (n : Namer) (v : Nat) (type : Ty) : n.Grows (n.ensure v type) := by
  refine ⟨fun first words h => h.ensure v type, fun x s h => ?_⟩
  cases x with
  | var w => exact lookup_ensure_of type h
  | exception b =>
      rw [Calls, caught_ensure]
      exact h
  | parameter i => exact h
  | register k => exact h

theorem ensureCaught (n : Namer) (b : Nat) (type : Ty) : n.Grows (n.ensureCaught b type) := by
  refine ⟨fun first words h => h.ensureCaught b type, fun x s h => ?_⟩
  cases x with
  | var w =>
      rw [Calls, names_ensureCaught]
      exact h
  | exception c => exact lookup_ensureCaught_of type h
  | parameter i => exact h
  | register k => exact h

end Grows

end Namer

def Item.Covered : Item → Prop
  | .marked c => c.phrase.Covered
  | .assign _ _ value => value.Covered
  | _ => True

theorem Moves.covered {x : Item} {S S' : List Bracket} (h : Moves x S S') : x.Covered := by
  cases h <;> trivial

theorem Nests.covered {xs : List Item} {S S' : List Bracket} (h : Nests xs S S') : ∀ x ∈ xs, x.Covered := by
  induction h with
  | nil => exact List.forall_mem_nil _
  | cons hx _ ih => exact List.forall_mem_cons.mpr ⟨hx.covered, ih⟩

theorem Lifted.covered_items (m : Lifted) (hasDecls : Nat → Bool) : ∀ x ∈ m.items hasDecls, x.Covered := by
  rw [m.items_eq hasDecls]
  intro x hx
  rw [List.mem_cons, List.mem_append, List.mem_singleton] at hx
  rcases hx with rfl | hx | rfl
  · trivial
  · exact (m.nests_body hasDecls).covered x hx
  · trivial

namespace Draft

variable {m : Lifted} {style : Style} {ds : List (Nat × Declaration)} {d : Draft} {x : Item} {y : Referent} {s : String}

theorem namer_remark (d : Draft) (r : Diagnostic) : (d.remark r).namer = d.namer := by
  unfold remark
  split_ifs <;> rfl

theorem grows_event (d : Draft) (e : Event) : d.namer.Grows (event m d e).namer := by
  cases e with
  | remark r =>
      rw [event, namer_remark]
      exact .refl _
  | read r =>
      rw [event]
      split
      next v _ => exact .ensure _ _ _
      next =>
        rw [namer_remark]
        exact .refl _

theorem grows_events (d : Draft) (es : List Event) : d.namer.Grows (es.foldl (event m) d).namer := by
  induction es generalizing d with
  | nil => exact .refl _
  | cons e es ih => exact (grows_event d e).trans (ih _)

theorem named_read {r : Register} {v : Nat} {es : List Event} (d : Draft) (hr : .read r ∈ es) (hv : r.var = some v) :
    ((es.foldl (event m) d).namer.names.lookup v).isSome := by
  induction es generalizing d with
  | nil => cases hr
  | cons e es ih =>
      rcases List.mem_cons.mp hr with rfl | hr
      · obtain ⟨s, hs⟩ := Option.isSome_iff_exists.mp (Namer.lookup_ensure d.namer v (m.typeOf v))
        have hread : (event m d (.read r)).namer.Calls (.var v) s := by
          rw [event, hv]
          exact hs
        exact Option.isSome_iff_exists.mpr ⟨s, (grows_events _ es).calls (.var v) s hread⟩
      · exact ih _ hr

def Truthful (n : Namer) (p : Part) : Prop := ∀ x s, p = .name x s → n.Calls x s

theorem truthful_text (n : Namer) (s : String) : Truthful n (.text s) := nofun

theorem Truthful.name {n : Namer} {x : Referent} {s : String} (h : n.Calls x s) : Truthful n (.name x s) :=
  fun _ _ he => by cases he; exact h

theorem Truthful.grow {n n' : Namer} {p : Part} (h : Truthful n p) (hn : n.Grows n') : Truthful n' p :=
  fun x s he => hn.calls x s (h x s he)

theorem calls_nameOf {n : Namer} {v : Nat} (h : (n.names.lookup v).isSome) : n.Calls (.var v) (n.nameOf v) := by
  obtain ⟨s, hs⟩ := Option.isSome_iff_exists.mp h
  simp [Namer.Calls, Namer.nameOf, hs]

theorem truthful_register {r : Register} (h : ∀ v, r.var = some v → (d.namer.names.lookup v).isSome) :
    Truthful d.namer (d.registerPart r) := by
  unfold registerPart registerName
  cases hr : r.var with
  | none => exact .name rfl
  | some v => exact .name (calls_nameOf (h v hr))

theorem truthful_pieces {p : Phrase} (hp : p.Covered)
    (h : ∀ r v, .read r ∈ p.events → r.var = some v → (d.namer.names.lookup v).isSome) :
    ∀ q ∈ p.pieces.map d.piecePart, Truthful d.namer q := by
  intro q hq
  obtain ⟨y, hy, rfl⟩ := List.mem_map.mp hq
  cases y with
  | text s => exact truthful_text _ _
  | name r => exact truthful_register fun v hv => h r v (hp r hy) hv

theorem grows_assigned (d : Draft) (result : Register) (value : Phrase) :
    d.namer.Grows (d.assigned m result value).namer := by
  have hevents := grows_events (m := m) d value.events
  unfold assigned
  cases result.var with
  | none => exact hevents
  | some v => exact hevents.trans (.ensure _ _ _)

theorem named_assigned {result : Register} {value : Phrase} (d : Draft) {v : Nat} (hv : result.var = some v) :
    ((d.assigned m result value).namer.names.lookup v).isSome := by
  unfold assigned
  rw [hv]
  exact Namer.lookup_ensure _ _ _

theorem named_value {result r : Register} {value : Phrase} (d : Draft) {v : Nat} (hr : .read r ∈ value.events)
    (hv : r.var = some v) : ((d.assigned m result value).namer.names.lookup v).isSome := by
  obtain ⟨s, hs⟩ := Option.isSome_iff_exists.mp (named_read (m := m) d hr hv)
  unfold assigned
  cases result.var with
  | none => exact Option.isSome_iff_exists.mpr ⟨s, hs⟩
  | some w => exact Option.isSome_iff_exists.mpr ⟨s, Namer.lookup_ensure_of _ hs⟩

section

variable {α : Type} {parts : Draft → α → List Part} {next : Draft → α → Draft}

theorem grows_foldl (hnext : ∀ (d : Draft) (a : α), d.namer.Grows (next d a).namer) (d : Draft) (xs : List α) :
    d.namer.Grows (xs.foldl next d).namer := by
  induction xs generalizing d with
  | nil => exact .refl _
  | cons a xs ih => exact (hnext d a).trans (ih _)

/-- Names stand at the end for what they stood for when they were written. -/
theorem truthful_along {xs : List α} (hnext : ∀ (d : Draft) (a : α), d.namer.Grows (next d a).namer)
    (hparts : ∀ (d : Draft), ∀ a ∈ xs, ∀ p ∈ parts d a, Truthful (next d a).namer p) (d : Draft) :
    ∀ p ∈ partsAlong parts next d xs, Truthful (xs.foldl next d).namer p := by
  induction xs generalizing d with
  | nil => nofun
  | cons a xs ih =>
      rw [partsAlong, List.forall_mem_append]
      refine ⟨fun p hp => (hparts d a List.mem_cons_self p hp).grow (grows_foldl hnext _ xs), ?_⟩
      exact ih (fun d b hb => hparts d b (List.mem_cons_of_mem _ hb)) _

end

theorem grows_declareAt (d : Draft) (x : Nat × Declaration) : d.namer.Grows (declareAt m d x).namer := .ensure _ _ _

theorem truthful_declare {v : Nat} (h : (d.namer.names.lookup v).isSome) :
    ∀ p ∈ d.declareParts m v, Truthful d.namer p := by
  refine List.forall_mem_cons.mpr ⟨truthful_text _ _, List.forall_mem_singleton.mpr ?_⟩
  exact .name (calls_nameOf h)

theorem grows_item (d : Draft) (x : Item) : d.namer.Grows (d.item m style ds x).namer := by
  cases x with
  | line s | indent | dedent | closeScope => exact .refl _
  | label b name =>
      rw [item, label]
      split_ifs <;> exact .refl _
  | marked c => exact grows_events _ _
  | assign head result value =>
      rw [item, assign_namer]
      exact grows_assigned _ _ _
  | handler offset type c =>
      cases c with
      | var v => exact .ensure _ _ _
      | block b type => exact .ensureCaught _ _ _
  | openScope id => exact grows_foldl grows_declareAt _ _

/-- Each name that an item writes is that of what it stands for. -/
theorem truthful_item (d : Draft) {x : Item} (hx : x.Covered) :
    ∀ p ∈ d.itemParts m style ds x, Truthful (d.item m style ds x).namer p := by
  cases x with
  | line s => exact List.forall_mem_singleton.mpr (truthful_text _ _)
  | indent | dedent | closeScope => nofun
  | label b name =>
      rw [itemParts]
      split_ifs
      · nofun
      · exact List.forall_mem_singleton.mpr (truthful_text _ _)
  | marked c =>
      refine List.forall_mem_cons.mpr ⟨truthful_text _ _, List.forall_mem_append.mpr ⟨?_, ?_⟩⟩
      · exact truthful_pieces hx fun r v hr hv => named_read d hr hv
      · exact List.forall_mem_singleton.mpr (truthful_text _ _)
  | assign head result value =>
      have hvalue : ∀ p ∈ Part.text " = " :: value.pieces.map (d.assigned m result value).piecePart
          ++ [.text ";", .text (spell (commentSigns style head.offset true))],
          Truthful (d.assigned m result value).namer p := by
        rw [List.cons_append, List.forall_mem_cons, List.forall_mem_append]
        refine ⟨truthful_text _ _, ?_, ?_⟩
        · exact truthful_pieces hx fun r v hr hv => named_value d hr hv
        · exact List.forall_mem_cons.mpr ⟨truthful_text _ _, List.forall_mem_singleton.mpr (truthful_text _ _)⟩
      rw [item, assign_namer, itemParts, assignParts]
      cases hfilter : result.var.filter ((d.assigned m result value).declaresHere ds) with
      | some v =>
          have hv := (Option.filter_eq_some_iff.mp hfilter).1
          refine List.forall_mem_cons.mpr ⟨truthful_text _ _, List.forall_mem_append.mpr ⟨?_, hvalue⟩⟩
          exact truthful_declare (named_assigned d hv)
      | none =>
          dsimp only
          split_ifs
          · nofun
          · refine List.forall_mem_cons.mpr ⟨truthful_text _ _, List.forall_mem_cons.mpr ⟨?_, hvalue⟩⟩
            exact truthful_register fun v hv => named_assigned d hv
  | handler offset type c =>
      refine List.forall_mem_cons.mpr ⟨truthful_text _ _, List.forall_mem_cons.mpr ⟨?_,
        List.forall_mem_singleton.mpr (truthful_text _ _)⟩⟩
      cases c with
      | var v => exact .name (calls_nameOf (Namer.lookup_ensure _ _ _))
      | block b type =>
          obtain ⟨s, hs⟩ := Option.isSome_iff_exists.mp (Namer.lookup_ensureCaught d.namer b type)
          refine .name ?_
          change (d.namer.ensureCaught b type).caught.lookup b = some ((d.namer.ensureCaught b type).caughtName b)
          rw [Namer.caughtName, hs, Option.getD_some]
  | openScope id =>
      refine truthful_along grows_declareAt (fun d x _ => ?_) d
      refine List.forall_mem_cons.mpr ⟨truthful_text _ _, List.forall_mem_append.mpr ⟨?_, ?_⟩⟩
      · exact truthful_declare (Namer.lookup_ensure _ _ _)
      · exact List.forall_mem_singleton.mpr (truthful_text _ _)

end Draft

namespace Lifted

variable {m : Lifted} {style : Style} {x y : Referent} {s : String} {i j v : Nat}

def Heads (m : Lifted) (x : Referent) (s : String) : Prop :=
  ∃ i, (Survey.entryNames m).2[i]? = some s ∧ m.parameter i = x

theorem mem_paramParts {ps : List (Ty × String)} (h : .name x s ∈ m.paramParts i ps) :
    ∃ k t, ps[k]? = some (t, s) ∧ m.parameter (i + k) = x := by
  induction ps generalizing i with
  | nil => cases h
  | cons p rest ih =>
      obtain ⟨t, name⟩ := p
      rw [paramParts, List.cons_append, List.cons_append, List.mem_cons, List.mem_cons, List.mem_append] at h
      rcases h with h | h | h | h
      · cases h
      · cases h
        exact ⟨0, t, rfl, rfl⟩
      · split_ifs at h
        · cases h
        · cases List.mem_singleton.mp h
      · obtain ⟨k, t, hk, hx⟩ := ih h
        exact ⟨k + 1, t, hk, by rw [← hx, Nat.add_right_comm, Nat.add_assoc]⟩

theorem heads_of_mem (h : .name x s ∈ m.headParts style) : m.Heads x s := by
  unfold headParts at h
  dsimp only at h
  split_ifs at h
  · cases List.mem_singleton.mp h
  all_goals
    rw [List.cons_append, List.mem_cons, List.mem_append, List.mem_singleton] at h
    rcases h with h | h | h
    · cases h
    · obtain ⟨k, t, hk, hx⟩ := mem_paramParts h
      refine ⟨k, ?_, by rw [← hx, Nat.zero_add]⟩
      have hsnd := congrArg (Option.map Prod.snd) hk
      rw [← List.getElem?_map, List.map_snd_zip m.length_entryNames.le] at hsnd
      exact hsnd
    · cases h

/-- A name in the text is one that has been given to what it stands for, or the number of a register. -/
theorem calls_of_mem (h : .name x s ∈ m.parts style) : (m.lastDraft style).namer.Calls x s ∨ m.Heads x s := by
  rw [parts, List.mem_append, List.mem_append, List.mem_cons, List.mem_singleton] at h
  rcases h with (h | h | h) | h
  · exact .inr (heads_of_mem h)
  · cases h
  · have hgrows (d : Draft) (a : Item) : d.namer.Grows (d.item m style m.survey.declarations a).namer :=
      Draft.grows_item d a
    have htruthful := Draft.truthful_along hgrows (fun d a ha => Draft.truthful_item d (m.covered_items _ a ha))
      (m.firstDraft style) _ h
    exact .inl (htruthful x s rfl)
  · cases h

theorem lastNamer_proper (m : Lifted) (style : Style) :
    (m.lastDraft style).namer.Proper m.firstNamer.names m.entryWords := by
  have hgrows (d : Draft) (a : Item) : d.namer.Grows (d.item m style m.survey.declarations a).namer := Draft.grows_item d a
  exact (Draft.grows_foldl hgrows (m.firstDraft style) m.writtenItems).proper _ _ m.survey_proper

theorem entryWord_injective (hi : (Survey.entryNames m).2[i]? = some s) (hj : (Survey.entryNames m).2[j]? = some s) :
    i = j := by
  obtain ⟨hlt, rfl⟩ := List.getElem?_eq_some_iff.mp hi
  obtain ⟨hlt', heq⟩ := List.getElem?_eq_some_iff.mp hj
  exact ((List.nodup_cons.mp m.entryWords_nodup).2.getElem_inj_iff.mp heq).symm

/-- A variable that is called like a parameter holds its argument. -/
theorem parameter_of_lookup (hi : (Survey.entryNames m).2[i]? = some s)
    (hv : (m.lastDraft style).namer.names.lookup v = some s) : m.parameter i = .var v := by
  have hmem := List.mem_of_getElem? hi
  have hfirst := ((m.lastNamer_proper style).later _ (Assoc.mem_of_lookup hv)).resolve_right
    (not_not_intro (List.mem_cons_of_mem _ hmem))
  rcases List.mem_cons.mp (m.mem_firstNamer.mp hfirst) with heq | hzip
  · obtain ⟨-, rfl⟩ := Prod.mk.inj heq
    exact absurd hmem (List.nodup_cons.mp m.entryWords_nodup).1
  · obtain ⟨k, hk⟩ := List.getElem?_of_mem hzip
    obtain ⟨hparam, hname⟩ := List.getElem?_zip_eq_some.mp hk
    obtain rfl := entryWord_injective hi hname
    rw [parameter, hparam]
    rfl

theorem eq_of_heads (hx : m.Heads x s) (hcalls : (m.lastDraft style).namer.Calls y s)
    (hy : ∀ k, y ≠ .register k) : x = y := by
  obtain ⟨i, hi, rfl⟩ := hx
  cases y with
  | var v => exact parameter_of_lookup hi hcalls
  | parameter j => exact hcalls.elim
  | exception b =>
      have hcaught := (m.lastNamer_proper style).caught _ (Assoc.mem_of_lookup hcalls)
      exact absurd (List.mem_cons_of_mem _ (List.mem_of_getElem? hi)) hcaught
  | register k => exact absurd rfl (hy k)

/-- What has a name that was given is known by it. -/
theorem eq_of_calls (hx : (m.lastDraft style).namer.Calls x s) (hy : (m.lastDraft style).namer.Calls y s)
    (hxr : ∀ k, x ≠ .register k) (hyr : ∀ k, y ≠ .register k) : x = y := by
  have hproper := m.lastNamer_proper style
  cases x with
  | var v =>
      cases y with
      | var w => exact congrArg _ (hproper.eq_of_name hx hy)
      | exception b => exact absurd rfl (hproper.name_ne_caughtName hx hy)
      | parameter j => exact hy.elim
      | register k => exact absurd rfl (hyr k)
  | exception b =>
      cases y with
      | var w => exact absurd rfl (hproper.name_ne_caughtName hy hx)
      | exception c => exact congrArg _ (hproper.eq_of_caughtName hx hy)
      | parameter j => exact hy.elim
      | register k => exact absurd rfl (hyr k)
  | parameter i => exact hx.elim
  | register k => exact absurd rfl (hxr k)

/-- The search for a name always ends. In the text of a method two names that are spelled the same stand for the same
exactly if no register without a variable shows up under the name of something else. -/
theorem namesIdentify_iff (m : Lifted) (style : Style) :
    (∀ taken word, Allocates taken word (freshName taken word)) ∧
      spellParts (m.parts style) = (m.render style).1.code ∧
      (m.NamesIdentify style ↔ ∀ k, .name (.register k) ("r" ++ toString k) ∈ m.parts style →
        ∀ x, .name x ("r" ++ toString k) ∈ m.parts style → x = .register k) := by
  refine ⟨freshName_allocates, m.spellParts_parts style, fun h k hk x hx => h x _ _ hx hk, fun h x y s hx hy => ?_⟩
  have hregister {k : Nat} (hk : .name (.register k) s ∈ m.parts style) : s = "r" ++ toString k := by
    rcases calls_of_mem hk with hcalls | ⟨i, -, hi⟩
    · exact hcalls
    · unfold parameter at hi
      cases hparam : m.params[i]?.join <;> simp [hparam] at hi
  by_cases hxr : ∃ k, x = .register k
  · obtain ⟨k, rfl⟩ := hxr
    obtain rfl := hregister hx
    exact (h k hx y hy).symm
  by_cases hyr : ∃ k, y = .register k
  · obtain ⟨k, rfl⟩ := hyr
    obtain rfl := hregister hy
    exact h k hy x hx
  rw [not_exists] at hxr hyr
  rcases calls_of_mem hx with hx | hx
  · rcases calls_of_mem hy with hy | hy
    · exact eq_of_calls hx hy hxr hyr
    · exact (eq_of_heads hy hx hxr).symm
  · rcases calls_of_mem hy with hy | hy
    · exact eq_of_heads hx hy hyr
    · obtain ⟨i, hi, rfl⟩ := hx
      obtain ⟨j, hj, rfl⟩ := hy
      rw [entryWord_injective hi hj]

/-- The argument is called like the register that is returned, which nobody has set. -/
theorem not_namesIdentify_unsetRegister :
    ∃ m, ofCode ⟨"a.B", "m", [.object "x.R5"], .object "x.R5", ⟨8⟩⟩ [.typed 0 (.object "x.R5")]
        [.of .ret [.ofReg 5] none 0] [] 1 = .ok m ∧
      ¬ m.NamesIdentify ⟨4, 0, false⟩ := by
  have hlifted : (ofCode ⟨"a.B", "m", [.object "x.R5"], .object "x.R5", ⟨8⟩⟩ [.typed 0 (.object "x.R5")]
      [.of .ret [.ofReg 5] none 0] [] 1).toOption.any (fun m => decide (.name (.var 0) "r5" ∈ m.parts ⟨4, 0, false⟩ ∧
        .name (.register 5) "r5" ∈ m.parts ⟨4, 0, false⟩)) = true := by decide +kernel
  obtain ⟨m, hm, hnames⟩ := exists_ok_of_any hlifted
  obtain ⟨hvar, hregister⟩ := of_decide_eq_true hnames
  refine ⟨m, hm, fun h => ?_⟩
  cases h _ _ _ hvar hregister

end Lifted

end JavaLift.Source
