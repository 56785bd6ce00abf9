import JavaLift.Dump.Convert
import JavaLift.Proofs.Except
import JavaLift.Proofs.Ty.Descriptor

namespace JavaLift

section

variable {ε ε' α β : Type} {x : Except ε α} {fs gs : List ε}

def faultsOf : Except ε α → List ε
  | .error e => [e]
  | .ok _ => []

/-- A computation has these faults: it fails with the first one, and gives a result if there are none. -/
def HasFaults (x : Except ε α) (fs : List ε) : Prop := (faultsOf x).head? = fs.head?

theorem hasFaults_faultsOf (x : Except ε α) : HasFaults x (faultsOf x) := rfl

theorem hasFaults_ok (a : α) : HasFaults (.ok a : Except ε α) [] := rfl

theorem HasFaults.eq_error_iff (h : HasFaults x fs) {e : ε} : x = .error e ↔ fs.head? = some e := by
  rw [← h]
  cases x <;> simp [faultsOf]

theorem HasFaults.exists_ok_iff (h : HasFaults x fs) : (∃ a, x = .ok a) ↔ fs = [] := by
  rw [← List.head?_eq_none_iff, ← h]
  cases x <;> simp [faultsOf]

theorem HasFaults.bind {f : α → Except ε β} (hx : HasFaults x fs) (hf : ∀ a, x = .ok a → HasFaults (f a) gs) :
    HasFaults (x >>= f) (fs ++ gs) := by
  cases x with
  | error e =>
      obtain ⟨rest, rfl⟩ := List.head?_eq_some_iff.mp hx.symm
      rfl
  | ok a =>
      have hnone : fs = [] := List.head?_eq_none_iff.mp hx.symm
      subst hnone
      exact hf a rfl

theorem HasFaults.mapError (h : HasFaults x fs) (f : ε → ε') : HasFaults (x.mapError f) (fs.map f) := by
  rw [HasFaults, List.head?_map, ← h]
  cases x <;> rfl

theorem HasFaults.map (h : HasFaults x fs) (f : α → β) : HasFaults (x.map f) fs := by
  rw [HasFaults, ← h]
  cases x <;> rfl

theorem HasFaults.pure_bind {f : α → Except ε β} (h : HasFaults x fs) (hf : ∀ a, ∃ b, f a = .ok b) :
    HasFaults (x >>= f) fs := by
  rw [← List.append_nil fs]
  refine h.bind fun a _ => ?_
  obtain ⟨b, hb⟩ := hf a
  rw [hb]
  rfl

theorem mapError_eq_error {f : ε → ε'} {e' : ε'} : x.mapError f = .error e' ↔ ∃ e, x = .error e ∧ f e = e' := by
  cases x <;> simp [Except.mapError]

theorem map_eq_error {f : α → β} {e : ε} : x.map f = .error e ↔ x = .error e := by
  cases x <;> simp [Except.map]

theorem mem_faultsOf {e : ε} : e ∈ faultsOf x ↔ x = .error e := by
  cases x <;> simp [faultsOf, eq_comm]

theorem HasFaults.mapM {l : List α} {f : α → Except ε β} {faults : α → List ε}
    (h : ∀ a ∈ l, HasFaults (f a) (faults a)) :
    HasFaults (l.mapM f) (l.flatMap faults) := by
  induction l with
  | nil => rfl
  | cons a l ih =>
      rw [List.forall_mem_cons] at h
      rw [List.mapM_cons, List.flatMap_cons]
      exact h.1.bind fun b _ => (ih h.2).pure_bind fun bs => ⟨b :: bs, rfl⟩

end

namespace PoolDump

def tableFaults {α β : Type} (items : List α) (read : α → Except EntryFault β) (place : Nat → EntryFault → PoolFault) :
    List PoolFault :=
  items.zipIdx.flatMap fun (a, i) => (faultsOf (read a)).map (place i)

def faults (p : PoolDump) : Format → List PoolFault
  | .dalvik =>
    tableFaults p.types readType .inTypes ++
      (tableFaults p.fields MemberDump.toField .inFields ++ tableFaults p.methods MemberDump.toMethod .inMethods)
  | .classFile => p.entries.flatMap fun (_, v) => (faultsOf v.toEntry).map .inEntries

theorem hasFaults_readTable {α β : Type} (items : List α) (read : α → Except EntryFault β)
    (place : Nat → EntryFault → PoolFault) : HasFaults (readTable items read place) (tableFaults items read place) :=
  .mapM fun _ _ => (hasFaults_faultsOf _).mapError _

theorem toPool_hasFaults (p : PoolDump) (format : Format) : HasFaults (p.toPool format) (p.faults format) := by
  cases format with
  | dalvik =>
      refine (hasFaults_readTable ..).bind fun types _ => (hasFaults_readTable ..).bind fun fields _ => ?_
      exact (hasFaults_readTable ..).pure_bind fun methods => ⟨_, rfl⟩
  | classFile =>
      refine HasFaults.pure_bind (.mapM fun (i, v) _ => ?_) fun entries => ⟨_, rfl⟩
      exact ((hasFaults_faultsOf v.toEntry).mapError _).pure_bind fun entry => ⟨_, rfl⟩

end PoolDump

namespace CodeDump

def exceptionFaults (tries : List TryDump) : List CodeFault :=
  tries.flatMap fun t => t.handlers.flatMap fun h => h.exception.toList.flatMap fun name =>
    (faultsOf (readClass name)).map .exception

def faults (c : CodeDump) (format : Format) : List CodeFault :=
  (match readHex c.code with
    | .error fault => [fault]
    | .ok bytes => if format = .dalvik ∧ bytes.length % 2 ≠ 0 then [.oddLength bytes.length] else []) ++
  exceptionFaults c.tries

theorem toCode_hasFaults (c : CodeDump) (format : Format) : HasFaults (c.toCode format) (c.faults format) := by
  unfold toCode faults
  cases readHex c.code with
  | error fault => rfl
  | ok bytes =>
      change HasFaults (if format = .dalvik ∧ bytes.length % 2 ≠ 0 then _ else _) _
      simp only
      split
      · rfl
      · change HasFaults (c.tries.mapM _ >>= _) (exceptionFaults c.tries)
        refine HasFaults.pure_bind (.mapM fun t _ => ?_) fun tries => ⟨_, rfl⟩
        refine HasFaults.pure_bind (.mapM fun h _ => ?_) fun handlers => ⟨_, rfl⟩
        obtain ⟨exception, target⟩ := h
        cases exception with
        | none => exact hasFaults_ok _
        | some name =>
            rw [Option.toList_some, List.flatMap_singleton]
            exact (((hasFaults_faultsOf _).mapError _).map _).pure_bind fun exception => ⟨_, rfl⟩

end CodeDump

namespace ClassDump

def methodFaults (name : String) (format : Format) (m : MethodDump) : List DumpFault :=
  (faultsOf (Ty.ofMethodDescriptor m.descriptor)).map (.descriptor m.descriptor name m.name) ++
    m.code.toList.flatMap fun c => (c.faults format).map (.code name m.name)

def faults (d : ClassDump) : List DumpFault :=
  (d.pool.faults d.format).map (.pool (Ty.dotted d.name)) ++
    d.methods.flatMap (methodFaults (Ty.dotted d.name) d.format)

theorem toClass_hasFaults (d : ClassDump) : HasFaults d.toClass d.faults := by
  refine ((d.pool.toPool_hasFaults d.format).mapError _).bind fun pool _ => ?_
  refine HasFaults.pure_bind (.mapM fun m _ => ?_) fun methods => ⟨_, rfl⟩
  obtain ⟨name, descriptor, access, code⟩ := m
  have hsignature := (hasFaults_faultsOf (Ty.ofMethodDescriptor descriptor)).map fun p =>
    Signature.mk (Ty.dotted (Ty.dotted d.name)) name p.1 p.2 access
  refine (hsignature.mapError _).bind fun signature _ => ?_
  cases code with
  | none => exact hasFaults_ok _
  | some c =>
      rw [Option.toList_some, List.flatMap_singleton]
      exact (((c.toCode_hasFaults d.format).mapError _).map _).pure_bind fun code => ⟨_, rfl⟩

end ClassDump

def EntryFault.Sound : EntryFault → Prop
  | .typeDescriptor text why => Ty.ofDescriptor text = .error why
  | .methodDescriptor text _ why => Ty.ofMethodDescriptor text = .error why

/-- The text has a character of several bytes where a letter has to be. -/
def EntryFault.Cuts : EntryFault → Prop
  | .typeDescriptor text _ => Ty.Cut text.toList
  | .methodDescriptor text _ _ => Ty.CutMethod text.toList

theorem EntryFault.Sound.cuts_iff {fault : EntryFault} (h : fault.Sound) :
    fault.why = .splitCharacter ↔ fault.Cuts := by
  cases fault with
  | typeDescriptor text why =>
      rw [Cuts, ← Ty.descriptorOf_split_iff, ← Ty.ofDescriptor, show Ty.ofDescriptor text = .error why from h,
        Except.error.injEq]
      rfl
  | methodDescriptor text name why =>
      rw [Cuts, ← Ty.ofMethodDescriptor_split_iff, show Ty.ofMethodDescriptor text = .error why from h,
        Except.error.injEq]
      rfl

theorem sound_readType {text : String} {fault : EntryFault} (h : readType text = .error fault) : fault.Sound := by
  obtain ⟨why, hread, rfl⟩ := mapError_eq_error.mp h
  exact hread

theorem sound_readClass {name : String} {fault : EntryFault} (h : readClass name = .error fault) : fault.Sound := by
  unfold readClass at h
  split at h
  · exact sound_readType h
  · cases h

theorem sound_toField {m : MemberDump} {fault : EntryFault} (h : m.toField = .error fault) : fault.Sound := by
  rcases bind_eq_error.mp h with hread | ⟨_, -, hdone⟩
  · exact sound_readType hread
  · cases hdone

theorem sound_toMethod {m : MemberDump} {fault : EntryFault} (h : m.toMethod = .error fault) : fault.Sound := by
  obtain ⟨why, hread, rfl⟩ := mapError_eq_error.mp h
  exact map_eq_error.mp hread

theorem sound_toEntry {v : EntryValue} {fault : EntryFault} (h : v.toEntry = .error fault) : fault.Sound := by
  cases v with
  | cls name => exact sound_readClass (map_eq_error.mp h)
  | field m => exact sound_toField (map_eq_error.mp h)
  | method m => exact sound_toMethod (map_eq_error.mp h)
  | string | int | float | long | double => cases h

/-- What is at fault, in words: a table of the pool and the place in it, or the descriptor of a numbered entry. -/
def PoolFault.label : PoolFault → String
  | .inTypes i _ => "type #" ++ toString i
  | .inFields i _ => "field #" ++ toString i
  | .inMethods i _ => "method #" ++ toString i
  | .inEntries (.typeDescriptor text _) | .inEntries (.methodDescriptor text _ _) => Text.quoted text

def PoolFault.Concerns (p : PoolDump) : PoolFault → Prop
  | .inTypes i fault => ∃ text, p.types[i]? = some text ∧ readType text = .error fault
  | .inFields i fault => ∃ m, p.fields[i]? = some m ∧ m.toField = .error fault
  | .inMethods i fault => ∃ m, p.methods[i]? = some m ∧ m.toMethod = .error fault
  | .inEntries fault => ∃ entry ∈ p.entries, entry.2.toEntry = .error fault

theorem PoolFault.message_label (fault : PoolFault) :
    ∃ before after, fault.message = before ++ fault.label ++ after := by
  -- The messages are given in full, because the equations of the printer are slow to come by.
  have hplaced (table : String) (i : Nat) (text : String) :
      table ++ toString i ++ ": " ++ text = "" ++ (table ++ toString i) ++ (": " ++ text) := by
    rw [String.empty_append, String.append_assoc]
  cases fault with
  | inTypes i fault => exact ⟨_, _, hplaced "type #" i fault.message⟩
  | inFields i fault => exact ⟨_, _, hplaced "field #" i fault.message⟩
  | inMethods i fault => exact ⟨_, _, hplaced "method #" i fault.message⟩
  | inEntries fault =>
      cases fault with
      | typeDescriptor text why => exact ⟨"invalid type descriptor ", "", (String.append_empty).symm⟩
      | methodDescriptor text name why =>
          exact ⟨"invalid method descriptor ", " for " ++ name, String.append_assoc⟩

namespace DumpFault

def label : DumpFault → String
  | .pool _ fault => fault.label
  | .descriptor _ className methodName _ | .code className methodName _ => className ++ "." ++ methodName

def Concerns (d : ClassDump) : DumpFault → Prop
  | .pool className fault => className = Ty.dotted d.name ∧ fault.Concerns d.pool
  | .descriptor text className methodName why => className = Ty.dotted d.name ∧
      ∃ m ∈ d.methods, m.name = methodName ∧ m.descriptor = text ∧ Ty.ofMethodDescriptor text = .error why
  | .code className methodName fault => className = Ty.dotted d.name ∧
      ∃ m ∈ d.methods, m.name = methodName ∧ ∃ c ∈ m.code, fault ∈ c.faults d.format

def Cuts : DumpFault → Prop
  | .pool _ fault => fault.entry.Cuts
  | .descriptor text _ _ _ => Ty.CutMethod text.toList
  | .code _ _ (.exception fault) => fault.Cuts
  | .code .. => False

theorem message_label (f : DumpFault) : ∃ before after, f.message = before ++ f.label ++ after := by
  cases f with
  | pool className fault =>
      obtain ⟨before, after, hmessage⟩ := fault.message_label
      refine ⟨"Bad constant pool in " ++ className ++ ": " ++ before, after, ?_⟩
      change "Bad constant pool in " ++ className ++ ": " ++ fault.message = _
      rw [hmessage, ← String.append_assoc, ← String.append_assoc]
      rfl
  | descriptor text className methodName why =>
      refine ⟨"invalid descriptor " ++ Text.quoted text ++ " for ", "", ?_⟩
      change "invalid descriptor " ++ Text.quoted text ++ " for " ++ className ++ "." ++ methodName =
        _ ++ (className ++ "." ++ methodName) ++ ""
      rw [String.append_empty, ← String.append_assoc, ← String.append_assoc]
  | code className methodName fault =>
      refine ⟨"Bad code in ", ": " ++ fault.message, ?_⟩
      change "Bad code in " ++ className ++ "." ++ methodName ++ ": " ++ fault.message =
        "Bad code in " ++ (className ++ "." ++ methodName) ++ (": " ++ fault.message)
      rw [← String.append_assoc, ← String.append_assoc, ← String.append_assoc]

end DumpFault

theorem PoolDump.mem_tableFaults {α β : Type} {items : List α} {read : α → Except EntryFault β}
    {place : Nat → EntryFault → PoolFault} {fault : PoolFault} :
    fault ∈ tableFaults items read place ↔
      ∃ i a e, items[i]? = some a ∧ read a = .error e ∧ place i e = fault := by
  simp only [tableFaults, List.mem_flatMap, Prod.exists, List.mem_zipIdx_iff_getElem?, List.mem_map, mem_faultsOf]
  constructor
  · rintro ⟨a, i, hitem, e, hread, rfl⟩
    exact ⟨i, a, e, hitem, hread, rfl⟩
  · rintro ⟨i, a, e, hitem, hread, rfl⟩
    exact ⟨a, i, hitem, e, hread, rfl⟩

theorem PoolDump.concerns_of_mem {p : PoolDump} {format : Format} {fault : PoolFault} (h : fault ∈ p.faults format) :
    fault.Concerns p := by
  cases format with
  | dalvik =>
      rw [faults, List.mem_append, List.mem_append, mem_tableFaults, mem_tableFaults, mem_tableFaults] at h
      obtain ⟨i, a, e, hitem, hread, rfl⟩ | ⟨i, a, e, hitem, hread, rfl⟩ | ⟨i, a, e, hitem, hread, rfl⟩ := h
      all_goals exact ⟨a, hitem, hread⟩
  | classFile =>
      obtain ⟨entry, hentry, hfault⟩ := List.mem_flatMap.mp h
      obtain ⟨e, he, rfl⟩ := List.mem_map.mp hfault
      exact ⟨entry, hentry, mem_faultsOf.mp he⟩

theorem PoolFault.Concerns.sound {p : PoolDump} {fault : PoolFault} (h : fault.Concerns p) : fault.entry.Sound := by
  cases fault with
  | inTypes i fault =>
      obtain ⟨text, -, hread⟩ := h
      exact sound_readType hread
  | inFields i fault =>
      obtain ⟨m, -, hread⟩ := h
      exact sound_toField hread
  | inMethods i fault =>
      obtain ⟨m, -, hread⟩ := h
      exact sound_toMethod hread
  | inEntries fault =>
      obtain ⟨entry, -, hread⟩ := h
      exact sound_toEntry hread

theorem exists_of_hexPairs_error {bytes : List UInt8} {fault : CodeFault} (h : hexPairs bytes = .error fault) :
    ∃ b, fault = .badDigit b := by
  have hvalue {b : UInt8} {fault : CodeFault} (h : hexValue b = .error fault) : ∃ b, fault = .badDigit b := by
    unfold hexValue at h
    split_ifs at h
    exact ⟨b, (Except.error.inj h).symm⟩
  fun_induction hexPairs bytes with
  | case1 hi lo rest ih =>
      rcases bind_eq_error.mp h with h | ⟨_, -, h⟩
      · exact hvalue h
      rcases bind_eq_error.mp h with h | ⟨_, -, h⟩
      · exact hvalue h
      rcases bind_eq_error.mp h with h | ⟨_, -, h⟩
      · exact ih h
      · cases h
  | case2 => cases h

theorem readHex_ne_exception {text : String} {fault : EntryFault} : readHex text ≠ .error (.exception fault) := by
  intro h
  unfold readHex at h
  simp only at h
  split at h
  · cases h
  · obtain ⟨b, hb⟩ := exists_of_hexPairs_error h
    cases hb

theorem CodeDump.sound_of_mem {c : CodeDump} {format : Format} {fault : EntryFault}
    (h : .exception fault ∈ c.faults format) : fault.Sound := by
  rw [faults, List.mem_append] at h
  rcases h with h | h
  · split at h
    · rename_i hhex
      rw [← List.mem_singleton.mp h] at hhex
      exact absurd hhex readHex_ne_exception
    · split at h
      · cases List.mem_singleton.mp h
      · cases h
  · obtain ⟨t, -, h⟩ := List.mem_flatMap.mp h
    obtain ⟨handler, -, h⟩ := List.mem_flatMap.mp h
    obtain ⟨name, -, h⟩ := List.mem_flatMap.mp h
    obtain ⟨e, he, heq⟩ := List.mem_map.mp h
    cases heq
    exact sound_readClass (mem_faultsOf.mp he)

theorem ClassDump.concerns_of_mem {d : ClassDump} {f : DumpFault} (h : f ∈ d.faults) : f.Concerns d := by
  rw [faults, List.mem_append] at h
  rcases h with h | h
  · obtain ⟨fault, hfault, rfl⟩ := List.mem_map.mp h
    exact ⟨rfl, PoolDump.concerns_of_mem hfault⟩
  · obtain ⟨m, hm, h⟩ := List.mem_flatMap.mp h
    rw [methodFaults, List.mem_append] at h
    rcases h with h | h
    · obtain ⟨why, hwhy, rfl⟩ := List.mem_map.mp h
      exact ⟨rfl, m, hm, rfl, rfl, mem_faultsOf.mp hwhy⟩
    · obtain ⟨c, hc, h⟩ := List.mem_flatMap.mp h
      obtain ⟨fault, hfault, rfl⟩ := List.mem_map.mp h
      exact ⟨rfl, m, hm, rfl, c, Option.mem_toList.mp hc, hfault⟩

theorem DumpFault.Concerns.isFatal_iff {d : ClassDump} {f : DumpFault} (h : f.Concerns d) :
    f.isFatal = true ↔ f.Cuts := by
  cases f with
  | pool className fault => exact beq_iff_eq.trans h.2.sound.cuts_iff
  | descriptor text className methodName why =>
      obtain ⟨-, m, -, -, -, hread⟩ := h
      refine beq_iff_eq.trans ?_
      rw [Cuts, ← Ty.ofMethodDescriptor_split_iff, hread, Except.error.injEq]
  | code className methodName fault =>
      cases fault with
      | exception fault =>
          obtain ⟨-, m, -, -, c, -, hmem⟩ := h
          exact beq_iff_eq.trans (CodeDump.sound_of_mem hmem).cuts_iff
      | oddDigits | badDigit | oddLength => exact iff_of_false Bool.false_ne_true not_false

/-- The dump converts, or a fault is reported that names the entry of the pool or the method that it concerns. -/
def ClassDump.Reported (d : ClassDump) : Prop :=
  (∃ c, d.toClass = .ok c) ∨
    ∃ f, d.toClass = .error f ∧ f.isFatal = false ∧ f.Concerns d ∧
      ∃ before after, f.message = before ++ f.label ++ after

/-- A dump that converts has no fault. Another one ends with its first fault, which is reported exactly if no descriptor
is cut inside a character there; and a descriptor is cut exactly where a character of several bytes stands in the place
of a letter. -/
theorem conversion_reported_iff (d : ClassDump) :
    (∀ text, Ty.ofDescriptor text = .error .splitCharacter ↔ Ty.Cut text.toList) ∧
      (∀ text, Ty.ofMethodDescriptor text = .error .splitCharacter ↔ Ty.CutMethod text.toList) ∧
      ((∃ c, d.toClass = .ok c) ↔ d.faults = []) ∧
      (d.Reported ↔ ∀ f, d.faults.head? = some f → ¬ f.Cuts) := by
  have hfaults := d.toClass_hasFaults
  refine ⟨fun _ => Ty.descriptorOf_split_iff, fun _ => Ty.ofMethodDescriptor_split_iff, hfaults.exists_ok_iff, ?_⟩
  constructor
  · rintro (hok | ⟨f, hfault, hfatal, hconcerns, -⟩) f' hhead
    · rw [hfaults.exists_ok_iff.mp hok] at hhead
      cases hhead
    · rw [← hfaults.eq_error_iff, hfault] at hhead
      cases hhead
      rw [← hconcerns.isFatal_iff, hfatal]
      exact Bool.false_ne_true
  · intro hwhole
    cases hclass : d.toClass with
    | ok c => exact .inl ⟨c, hclass⟩
    | error f =>
        have hhead := hfaults.eq_error_iff.mp hclass
        have hconcerns := ClassDump.concerns_of_mem (List.mem_of_head? hhead)
        refine .inr ⟨f, hclass, ?_, hconcerns, f.message_label⟩
        rw [← Bool.not_eq_true, hconcerns.isFatal_iff]
        exact hwhole f hhead

/-- A class whose pool has an accent in the place of a type. -/
theorem not_reported_accent :
    ¬ ClassDump.Reported ⟨"a.B", none, [], ⟨0⟩, .dalvik, ⟨[], ["é"], [], [], []⟩, [], []⟩ := by
  have hclass : ClassDump.toClass ⟨"a.B", none, [], ⟨0⟩, .dalvik, ⟨[], ["é"], [], [], []⟩, [], []⟩
      = .error (.pool (Ty.dotted "a.B") (.inTypes 0 (.typeDescriptor "é" .splitCharacter))) := rfl
  rintro (⟨c, hc⟩ | ⟨f, hf, hfatal, -⟩)
  · rw [hclass] at hc
    cases hc
  · rw [hclass] at hf
    cases hf
    cases hfatal

end JavaLift
