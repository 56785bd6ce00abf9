import JavaLift.Member
import Mathlib

namespace JavaLift.Ty

variable {c : Char} {t ret : Ty} {ts params : List Ty} {text rest after before : List Char} {name : String}

def letters : List (Char × Ty) :=
  [('V', .void), ('Z', .boolean), ('B', .byte), ('S', .short), ('C', .char), ('I', .int), ('J', .long), ('F', .float),
    ('D', .double)]

/-- The text describes the type. The name of a class ends at the first semicolon. -/
inductive Describes : List Char → Ty → Prop
  | letter {c : Char} {t : Ty} : (c, t) ∈ letters → Describes [c] t
  | cls {name : List Char} : ';' ∉ name → Describes ('L' :: (name ++ [';'])) (.ofClassName (String.ofList name))
  | array {text : List Char} {t : Ty} : Describes text t → Describes ('[' :: text) (.array t)

inductive DescribesAll : List Char → List Ty → Prop
  | nil : DescribesAll [] []
  | cons {text rest : List Char} {t : Ty} {ts : List Ty} :
      Describes text t → DescribesAll rest ts → DescribesAll (text ++ rest) (t :: ts)

inductive DescribesMethod : List Char → List Ty × Ty → Prop
  | method {params ret : List Char} {ts : List Ty} {t : Ty} :
      DescribesAll params ts → Describes ret t → DescribesMethod ('(' :: (params ++ ')' :: ret)) (ts, t)

/-- A character of several bytes stands where the letter of a type has to be, first of all or after the brackets of
arrays. -/
def Cut (text : List Char) : Prop := ∃ n c rest, text = List.replicate n '[' ++ c :: rest ∧ c.utf8Size ≠ 1

/-- Such a character stands in a parameter or in the result, and all before it is in order. -/
def CutMethod (text : List Char) : Prop :=
  ∃ params ts rest, DescribesAll params ts ∧ Cut rest ∧
    (text = '(' :: (params ++ rest) ∨ text = '(' :: (params ++ ')' :: rest))

/-- A settled type whose class name a descriptor can hold: dots between its parts, and no semicolon. -/
def Describable : Ty → Prop
  | .object name => ';' ∉ name.toList ∧ '/' ∉ name.toList
  | .array t => t.Describable
  | .unknown | .narrow _ | .conflict => False
  | _ => True

theorem splitAt?_eq_some : splitAt? c text = some (before, after) ↔ text = before ++ c :: after ∧ c ∉ before := by
  induction text generalizing before with
  | nil => simp [splitAt?]
  | cons d rest ih =>
      rw [splitAt?]
      split
      · rename_i hd
        subst hd
        cases before with
        | nil => simp [eq_comm]
        | cons b before => simp +contextual [eq_comm]
      · rename_i hd
        cases before with
        | nil => simp [hd]
        | cons b before =>
            simp only [Option.map_eq_some_iff, Prod.exists, Prod.mk.injEq, List.cons.injEq, List.cons_append,
              List.mem_cons, not_or]
            constructor
            · rintro ⟨b', a', hsplit, ⟨rfl, rfl⟩, rfl⟩
              obtain ⟨rfl, hnot⟩ := ih.mp hsplit
              exact ⟨⟨rfl, rfl⟩, Ne.symm hd, hnot⟩
            · rintro ⟨⟨rfl, rfl⟩, -, hnot⟩
              exact ⟨before, after, ih.mpr ⟨rfl, hnot⟩, ⟨rfl, rfl⟩, rfl⟩

theorem ofLetter?_eq_some : ofLetter? c = some t ↔ (c, t) ∈ letters := by
  constructor
  · intro h
    unfold ofLetter? at h
    split at h <;> cases h <;> decide
  · intro h
    simp only [letters, List.mem_cons, Prod.mk.injEq, List.not_mem_nil, or_false] at h
    rcases h with h | h | h | h | h | h | h | h | h
    all_goals
      obtain ⟨rfl, rfl⟩ := h
      rfl

/-- A letter of a type has one byte and begins neither a class name nor an array. -/
theorem letter_facts : ∀ p ∈ letters, p.1.utf8Size = 1 ∧ p.1 ≠ 'L' ∧ p.1 ≠ '[' ∧ p.1 ≠ ')' ∧ p.1 ≠ '.' := by
  decide

theorem Describes.head_ne (h : Describes text t) (rest : List Char) : (text ++ rest).head? ≠ some ')' := by
  cases h with
  | letter hmem => simpa using (letter_facts _ hmem).2.2.2.1
  | cls | array => simp

/-- A type is read where its description stands, and what follows it is left. -/
theorem Describes.descriptorStart (h : Describes text t) (rest : List Char) :
    descriptorStart (text ++ rest) = .ok (t, rest) := by
  induction h with
  | @letter c t hmem =>
      obtain ⟨hsize, hcls, harray, -⟩ := letter_facts _ hmem
      rw [List.singleton_append, Ty.descriptorStart, if_neg (not_not.mpr hsize), if_neg hcls, if_neg harray,
        ofLetter?_eq_some.mpr hmem]
  | @cls name hname =>
      have hsplit : splitAt? ';' (name ++ ';' :: rest) = some (name, rest) := splitAt?_eq_some.mpr ⟨rfl, hname⟩
      rw [List.cons_append, List.append_assoc, List.singleton_append, Ty.descriptorStart, if_neg (by decide),
        if_pos rfl, hsplit]
  | @array text t _ ih =>
      rw [List.cons_append, Ty.descriptorStart, if_neg (by decide), if_neg (by decide), if_pos rfl, ih]

theorem exists_describes (h : descriptorStart text = .ok (t, rest)) :
    ∃ front, Describes front t ∧ text = front ++ rest := by
  induction text generalizing t with
  | nil => cases h
  | cons c cs ih =>
      rw [descriptorStart] at h
      split at h
      · cases h
      split at h
      · rename_i hc
        subst hc
        split at h
        · rename_i name after hsplit
          cases h
          obtain ⟨rfl, hname⟩ := splitAt?_eq_some.mp hsplit
          exact ⟨_, .cls hname, by simp⟩
        · cases h
      split at h
      · rename_i hc
        subst hc
        split at h
        · rename_i element after helement
          cases h
          obtain ⟨front, hfront, rfl⟩ := ih helement
          exact ⟨_, .array hfront, rfl⟩
        · cases h
      · split at h
        · rename_i hletter
          cases h
          exact ⟨_, .letter (ofLetter?_eq_some.mp hletter), rfl⟩
        · cases h

theorem not_cut_nil : ¬ Cut [] := by
  rintro ⟨n, c, rest, h, -⟩
  simp at h

theorem cut_cons : Cut (c :: text) ↔ c.utf8Size ≠ 1 ∨ c = '[' ∧ Cut text := by
  constructor
  · rintro ⟨n, d, rest, h, hd⟩
    cases n with
    | zero =>
        obtain ⟨rfl, rfl⟩ := List.cons.inj h
        exact .inl hd
    | succ n =>
        rw [List.replicate_succ, List.cons_append] at h
        obtain ⟨rfl, rfl⟩ := List.cons.inj h
        exact .inr ⟨rfl, n, d, rest, rfl, hd⟩
  · rintro (hc | ⟨rfl, n, d, rest, rfl, hd⟩)
    · exact ⟨0, c, text, rfl, hc⟩
    · exact ⟨n + 1, d, rest, by rw [List.replicate_succ, List.cons_append], hd⟩

theorem descriptorStart_split_iff : descriptorStart text = .error .splitCharacter ↔ Cut text := by
  induction text with
  | nil => simp [descriptorStart, not_cut_nil]
  | cons c cs ih =>
      rw [descriptorStart, cut_cons]
      split
      · rename_i hc
        simp [hc]
      rename_i hone
      rw [or_iff_right hone]
      split
      · rename_i hc
        subst hc
        split <;> simp
      split
      · rename_i hc
        rw [and_iff_right hc, ← ih]
        split
        · rename_i helement
          simp [helement]
        · rename_i helement
          simp [helement]
      · rename_i hc
        split <;> simp [hc]

theorem descriptorOf_eq_ok : descriptorOf text = .ok t ↔ Describes text t := by
  constructor
  · intro h
    unfold descriptorOf at h
    split at h
    · cases h
    · rename_i hstart
      cases h
      obtain ⟨front, hfront, rfl⟩ := exists_describes hstart
      rwa [List.append_nil]
    · cases h
  · intro h
    have hstart := h.descriptorStart []
    rw [List.append_nil] at hstart
    rw [descriptorOf, hstart]

theorem descriptorOf_split_iff : descriptorOf text = .error .splitCharacter ↔ Cut text := by
  rw [← descriptorStart_split_iff, descriptorOf]
  split
  · rename_i hstart
    simp [hstart]
  · rename_i hstart
    simp [hstart]
  · rename_i hstart
    simp [hstart]

theorem Describes.parametersStart (h : Describes text t) (rest : List Char) :
    parametersStart (text ++ rest) = (parametersStart rest).map fun (ts, after) => (t :: ts, after) := by
  rw [Ty.parametersStart, if_neg (h.head_ne rest)]
  split
  · rename_i hstart
    rw [h.descriptorStart] at hstart
    cases hstart
  · rename_i hstart
    rw [h.descriptorStart] at hstart
    cases hstart
    cases Ty.parametersStart rest <;> rfl

theorem parametersStart_close (rest : List Char) : parametersStart (')' :: rest) = .ok ([], rest) := by
  rw [parametersStart]
  rfl

theorem Cut.parametersStart (h : Cut text) : parametersStart text = .error .splitCharacter := by
  have hclose : text.head? ≠ some ')' := by
    intro hhead
    obtain ⟨more, rfl⟩ := List.head?_eq_some_iff.mp hhead
    rcases cut_cons.mp h with hsize | ⟨hbracket, -⟩
    · exact hsize (by decide)
    · exact absurd hbracket (by decide)
  have hread : Ty.descriptorStart text = .error .splitCharacter := descriptorStart_split_iff.mpr h
  rw [Ty.parametersStart, if_neg hclose]
  split
  · rename_i hstart
    rw [hread] at hstart
    cases hstart
    rfl
  · rename_i hstart
    rw [hread] at hstart
    cases hstart

theorem parametersStart_eq_ok :
    parametersStart text = .ok (ts, rest) ↔ ∃ front, DescribesAll front ts ∧ text = front ++ ')' :: rest := by
  constructor
  · intro h
    fun_induction parametersStart text generalizing ts with
    | case1 text hclose =>
        cases h
        obtain ⟨rest, rfl⟩ := List.head?_eq_some_iff.mp hclose
        exact ⟨[], .nil, rfl⟩
    | case2 => cases h
    | case3 text _ t after hstart ts' rest' hmore ih =>
        cases h
        obtain ⟨front, hfront, rfl⟩ := exists_describes hstart
        obtain ⟨front', hfront', rfl⟩ := ih hmore
        exact ⟨_, .cons hfront hfront', by rw [List.append_assoc]⟩
    | case4 => cases h
  · rintro ⟨front, hfront, rfl⟩
    induction hfront with
    | nil => exact parametersStart_close rest
    | cons hfront _ ih =>
        rw [List.append_assoc, hfront.parametersStart, ih]
        rfl

theorem parametersStart_split_iff :
    parametersStart text = .error .splitCharacter ↔
      ∃ params ts rest, DescribesAll params ts ∧ Cut rest ∧ text = params ++ rest := by
  constructor
  · intro h
    fun_induction parametersStart text with
    | case1 => cases h
    | case2 text _ e hstart =>
        cases h
        exact ⟨[], [], text, .nil, descriptorStart_split_iff.mp hstart, rfl⟩
    | case3 => cases h
    | case4 text _ t after hstart e hmore ih =>
        cases h
        obtain ⟨front, hfront, rfl⟩ := exists_describes hstart
        obtain ⟨params, ts, rest, hparams, hcut, rfl⟩ := ih hmore
        exact ⟨_, _, rest, .cons hfront hparams, hcut, by rw [List.append_assoc]⟩
  · rintro ⟨params, ts, rest, hparams, hcut, rfl⟩
    induction hparams with
    | nil => exact hcut.parametersStart
    | cons hfront _ ih =>
        rw [List.append_assoc, hfront.parametersStart, ih]
        rfl

theorem ofMethodDescriptor_eq_ok {descriptor : String} :
    ofMethodDescriptor descriptor = .ok (ts, t) ↔ DescribesMethod descriptor.toList (ts, t) := by
  unfold ofMethodDescriptor
  split
  · rename_i rest htext
    rw [htext]
    constructor
    · intro h
      split at h
      · cases h
      rename_i params after hparams
      split at h
      · rename_i ret hret
        cases h
        obtain ⟨front, hfront, rfl⟩ := parametersStart_eq_ok.mp hparams
        exact .method hfront (descriptorOf_eq_ok.mp hret)
      · cases h
    · intro h
      cases h with
      | @method params ret _ _ hparams hret =>
        have hread : parametersStart (params ++ ')' :: ret) = .ok (ts, ret) :=
          parametersStart_eq_ok.mpr ⟨params, hparams, rfl⟩
        simp [hread, descriptorOf_eq_ok.mpr hret]
  · rename_i hopen
    constructor
    · nofun
    · intro h
      generalize descriptor.toList = text at h hopen
      cases h with
      | method => exact absurd rfl (hopen _)

theorem ofMethodDescriptor_split_iff {descriptor : String} :
    ofMethodDescriptor descriptor = .error .splitCharacter ↔ CutMethod descriptor.toList := by
  unfold ofMethodDescriptor
  split
  · rename_i rest htext
    rw [htext]
    constructor
    · intro h
      split at h
      · rename_i hparams
        cases h
        obtain ⟨params, ts, after, hall, hcut, rfl⟩ := parametersStart_split_iff.mp hparams
        exact ⟨params, ts, after, hall, hcut, .inl rfl⟩
      rename_i ts after hparams
      split at h
      · cases h
      · rename_i hret
        cases h
        obtain ⟨params, hall, rfl⟩ := parametersStart_eq_ok.mp hparams
        exact ⟨params, ts, after, hall, descriptorOf_split_iff.mp hret, .inr rfl⟩
    · rintro ⟨params, ts, after, hall, hcut, h | h⟩
      · cases h
        rw [parametersStart_split_iff.mpr ⟨params, ts, after, hall, hcut, rfl⟩]
      · cases h
        rw [parametersStart_eq_ok.mpr ⟨params, hall, rfl⟩]
        simp only
        rw [descriptorOf_split_iff.mpr hcut]
  · rename_i hopen
    constructor
    · nofun
    · rintro ⟨params, ts, after, -, -, h | h⟩ <;> exact absurd h (hopen _)

def slash (c : Char) : Char := if c = '.' then '/' else c

theorem toList_slashed (name : String) : (slashed name).toList = name.toList.map slash := String.toList_map

theorem slash_eq_semicolon : slash c = ';' ↔ c = ';' := by by_cases hdot : c = '.' <;> simp [slash, hdot]

theorem map_slash_eq_self : text.map slash = text ↔ '.' ∉ text := by
  induction text with
  | nil => simp
  | cons c rest ih =>
      rw [List.map_cons, List.cons.injEq, ih, List.mem_cons, not_or]
      refine and_congr_left fun _ => ?_
      by_cases hdot : c = '.'
      · simp [slash, hdot]
      · simp [slash, hdot, Ne.symm hdot]

/-- Dots come back for the slashes of a name that has had none. -/
theorem dotted_slashed (h : '/' ∉ name.toList) : dotted (slashed name) = name := by
  have hback : ∀ c ∈ name.toList, (if slash c = '/' then '.' else slash c) = c := by
    intro c hc
    have hne : c ≠ '/' := fun heq => h (heq ▸ hc)
    by_cases hdot : c = '.'
    · simp [slash, hdot]
    · simp [slash, hdot, hne]
  apply String.toList_injective
  rw [dotted, String.toList_map, toList_slashed, List.map_map]
  exact (List.map_congr_left hback).trans (List.map_id' _)

theorem toList_descriptor_cls (name : String) :
    (descriptor (.object name)).toList = 'L' :: (name.toList.map slash ++ [';']) := by
  have htext : descriptor (.object name) = "L" ++ slashed name ++ ";" := rfl
  rw [htext, String.toList_append, String.toList_append, toList_slashed]
  rfl

theorem toList_descriptor_array (t : Ty) : (descriptor (.array t)).toList = '[' :: t.descriptor.toList := by
  rw [descriptor, String.toList_append]
  rfl

theorem toList_descriptor_letter : ∀ p ∈ letters, p.2.descriptor.toList = [p.1] := by
  decide

theorem toList_methodDescriptor (ts : List Ty) (t : Ty) :
    (methodDescriptor ts t).toList =
      '(' :: (ts.flatMap (fun t => t.descriptor.toList) ++ ')' :: t.descriptor.toList) := by
  rw [methodDescriptor, String.toList_append, String.toList_append, String.toList_append, String.toList_join,
    List.flatMap_map, List.append_assoc, List.append_assoc]
  rfl

/-- Printing gives back the description of a type, with slashes for dots. -/
theorem Describes.descriptor (h : Describes text t) : t.descriptor.toList = text.map slash := by
  induction h with
  | @letter c t hmem =>
      have hdot : c ≠ '.' := (letter_facts _ hmem).2.2.2.2
      rw [toList_descriptor_letter _ hmem, map_slash_eq_self.mpr (by simpa using hdot.symm)]
  | @cls name hname =>
      have hsame : (dotted (String.ofList name)).toList.map slash = name.map slash := by
        rw [dotted, String.toList_map, String.toList_ofList, List.map_map]
        refine List.map_congr_left fun c _ => ?_
        simp only [Function.comp, slash]
        split
        · rename_i hc
          simp [hc]
        · rfl
      rw [ofClassName, toList_descriptor_cls, hsame, List.map_cons, List.map_append]
      rfl
  | @array text t _ ih =>
      rw [toList_descriptor_array, ih, List.map_cons]
      rfl

theorem DescribesAll.descriptors (h : DescribesAll text ts) :
    ts.flatMap (fun t => t.descriptor.toList) = text.map slash := by
  induction h with
  | nil => rfl
  | cons hfront _ ih => rw [List.flatMap_cons, ih, hfront.descriptor, List.map_append]

theorem DescribesMethod.methodDescriptor (h : DescribesMethod text (ts, t)) :
    (methodDescriptor ts t).toList = text.map slash := by
  cases h with
  | method hparams hret =>
      rw [toList_methodDescriptor, hparams.descriptors, hret.descriptor, List.map_cons, List.map_append, List.map_cons]
      rfl

theorem Describable.describes (h : t.Describable) : Describes t.descriptor.toList t := by
  induction t with
  | object name =>
      have hclass : Ty.object name = .ofClassName (String.ofList (slashed name).toList) := by
        rw [String.ofList_toList, ofClassName, dotted_slashed h.2]
      have hname : ';' ∉ (slashed name).toList := by
        rw [toList_slashed, List.mem_map]
        rintro ⟨c, hc, hsemicolon⟩
        exact h.1 (slash_eq_semicolon.mp hsemicolon ▸ hc)
      rw [toList_descriptor_cls, ← toList_slashed, hclass]
      exact .cls hname
  | array t ih =>
      rw [toList_descriptor_array]
      exact .array (ih h)
  | unknown | narrow | conflict => cases h
  | void | boolean | byte | short | char | int | long | float | double => exact .letter (by decide)

theorem describesAll_descriptors (h : ∀ t ∈ ts, t.Describable) :
    DescribesAll (ts.flatMap fun t => t.descriptor.toList) ts := by
  induction ts with
  | nil => exact .nil
  | cons t ts ih =>
      rw [List.forall_mem_cons] at h
      exact .cons h.1.describes (ih h.2)

/-- A value that is read from a text, and printed, against a grammar. -/
structure Faithful {α : Type} (read : String → Except DescriptorFault α) (print : α → String)
    (describable : α → Prop) (describes : List Char → α → Prop) (cut : List Char → Prop) : Prop where
  read_print : ∀ a, describable a → read (print a) = .ok a
  accepted : ∀ text a, read text = .ok a ↔ describes text.toList a
  print_read : ∀ text a, read text = .ok a → (print a = text ↔ '.' ∉ text.toList)
  /-- Outside the grammar a text is refused, but for a character that is cut. -/
  refused : ∀ text, read text = .error .malformed ↔ (∀ a, ¬ describes text.toList a) ∧ ¬ cut text.toList
  split : ∀ text, read text = .error .splitCharacter ↔ cut text.toList

section

variable {α : Type} {read : String → Except DescriptorFault α} {print : α → String} {describable : α → Prop}
  {describes : List Char → α → Prop} {cut : List Char → Prop}

/-- What is printed gives back the text with slashes, and both faults are accounted for by the one that cuts. -/
theorem Faithful.of (accepted : ∀ text a, read text = .ok a ↔ describes text.toList a)
    (split : ∀ text, read text = .error .splitCharacter ↔ cut text.toList)
    (printed : ∀ text a, describes text a → (print a).toList = text.map slash)
    (described : ∀ a, describable a → describes (print a).toList a) :
    Faithful read print describable describes cut where
  read_print a ha := (accepted _ a).mpr (described a ha)
  accepted := accepted
  print_read text a ha := by
    rw [← map_slash_eq_self, ← printed _ a ((accepted text a).mp ha), String.toList_inj]
  refused text := by
    rw [← split]
    constructor
    · intro h
      refine ⟨fun a ha => ?_, ?_⟩
      · rw [← accepted, h] at ha
        cases ha
      · rw [h]
        nofun
    · rintro ⟨hnone, hwhole⟩
      cases hread : read text with
      | ok a => exact absurd ((accepted text a).mp hread) (hnone a)
      | error e => cases e with
        | malformed => rfl
        | splitCharacter => exact absurd hread hwhole
  split := split

end

/-- Descriptors of types and of methods are read back from what is printed, and printed again as what was read; all
other texts are refused, unless a character is cut. -/
theorem descriptors_faithful (className name : String) :
    Faithful ofDescriptor descriptor Describable Describes Cut ∧
      Faithful ofMethodDescriptor (fun m => (MethodRef.mk className name m.1 m.2).descriptor)
        (fun m => (∀ t ∈ m.1, t.Describable) ∧ m.2.Describable) DescribesMethod CutMethod := by
  constructor
  · refine .of (fun _ _ => descriptorOf_eq_ok) (fun _ => descriptorOf_split_iff) ?_ ?_
    · intro text t h
      exact h.descriptor
    · intro t h
      exact h.describes
  · refine .of (fun _ _ => ofMethodDescriptor_eq_ok) (fun _ => ofMethodDescriptor_split_iff) ?_ ?_
    · rintro text ⟨ts, t⟩ h
      exact h.methodDescriptor
    · rintro ⟨ts, t⟩ ⟨hts, ht⟩
      rw [MethodRef.descriptor, toList_methodDescriptor]
      exact .method (describesAll_descriptors hts) ht.describes

/-- A method that takes a number and an array of strings. -/
theorem descriptors_faithful_strings :
    (∀ t ∈ [Ty.int, .array (.object stringClass)], t.Describable) ∧ Ty.void.Describable ∧
      (MethodRef.mk "demo.Strings" "join" [.int, .array (.object stringClass)] .void).descriptor
        = "(I[Ljava/lang/String;)V" ∧
      ofMethodDescriptor (MethodRef.mk "demo.Strings" "join" [.int, .array (.object stringClass)] .void).descriptor
        = .ok ([.int, .array (.object stringClass)], .void) := by
  have hparams : ∀ t ∈ [Ty.int, .array (.object stringClass)], t.Describable := by
    simp [Describable, stringClass]
  refine ⟨hparams, trivial, ?_, ?_⟩
  · apply String.toList_injective
    rw [MethodRef.descriptor, toList_methodDescriptor, List.flatMap_cons, List.flatMap_singleton,
      toList_descriptor_array, toList_descriptor_cls]
    decide
  exact (descriptors_faithful "demo.Strings" "join").2.read_print (_, _) ⟨hparams, trivial⟩

/-- An accent describes no type, and it is not refused as no descriptor. -/
theorem not_refused_accent : (∀ t, ¬ Describes "é".toList t) ∧ ofDescriptor "é" ≠ .error .malformed := by
  have hread : ofDescriptor "é" = .error .splitCharacter := by decide
  refine ⟨fun t ht => ?_, by rw [hread]; nofun⟩
  have hok : ofDescriptor "é" = .ok t := descriptorOf_eq_ok.mpr ht
  rw [hread] at hok
  cases hok

end JavaLift.Ty
