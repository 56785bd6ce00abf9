import JavaLift.Ty.Basic

/-!
Type and method descriptors: `I`, `[J`, `Ljava/lang/String;`, `(IJ)V`. Reading cuts one byte off the text for
the letter of a type, so a character of more than one byte in that place is a fault of its own.
-/

namespace JavaLift

inductive DescriptorFault where
  /-- The text is no descriptor. -/
  | malformed
  /-- A character of several bytes stands where the letter of a type has to be. -/
  | splitCharacter
deriving DecidableEq

namespace Ty

def splitAt? (c : Char) : List Char → Option (List Char × List Char)
  | [] => none
  | d :: rest =>
    if d = c then some ([], rest)
    else (splitAt? c rest).map fun (before, after) => (d :: before, after)

def ofLetter? : Char → Option Ty
  | 'V' => some .void
  | 'Z' => some .boolean
  | 'B' => some .byte
  | 'S' => some .short
  | 'C' => some .char
  | 'I' => some .int
  | 'J' => some .long
  | 'F' => some .float
  | 'D' => some .double
  | _ => none

def descriptorStart : List Char → Except DescriptorFault (Ty × List Char)
  | [] => .error .malformed
  | c :: rest =>
    if c.utf8Size ≠ 1 then .error .splitCharacter
    else if c = 'L' then match splitAt? ';' rest with
      | some (name, after) => .ok (ofClassName (String.ofList name), after)
      | none => .error .malformed
    else if c = '[' then match descriptorStart rest with
      | .ok (t, after) => .ok (.array t, after)
      | .error e => .error e
    else match ofLetter? c with
      | some t => .ok (t, rest)
      | none => .error .malformed

theorem splitAt?_length {c : Char} {cs before after : List Char} (h : splitAt? c cs = some (before, after)) :
    after.length < cs.length := by
  induction cs generalizing before with
  | nil => simp [splitAt?] at h
  | cons d rest ih =>
    unfold splitAt? at h
    split at h
    · simp only [Option.some.injEq, Prod.mk.injEq] at h
      simp [← h.2]
    · obtain ⟨⟨b, a⟩, hs, he⟩ := Option.map_eq_some_iff.1 h
      simp only [Prod.mk.injEq] at he
      have := ih (he.2 ▸ hs)
      simp only [List.length_cons]
      omega

theorem descriptorStart_length {cs after : List Char} {t : Ty} (h : descriptorStart cs = .ok (t, after)) :
    after.length < cs.length := by
  induction cs generalizing t with
  | nil => simp [descriptorStart] at h
  | cons c rest ih =>
    unfold descriptorStart at h
    split at h
    · simp at h
    split at h
    · split at h
      · rename_i hs
        simp only [Except.ok.injEq, Prod.mk.injEq] at h
        have := splitAt?_length hs
        rw [← h.2, List.length_cons]
        omega
      · simp at h
    split at h
    · split at h
      · rename_i hs
        simp only [Except.ok.injEq, Prod.mk.injEq] at h
        have := ih (h.2 ▸ hs)
        simp only [List.length_cons]
        omega
      · simp at h
    · split at h
      · simp only [Except.ok.injEq, Prod.mk.injEq] at h
        simp [← h.2]
      · simp at h

def descriptorOf (cs : List Char) : Except DescriptorFault Ty :=
  match descriptorStart cs with
  | .error e => .error e
  | .ok (t, []) => .ok t
  | .ok (_, _ :: _) => .error .malformed

def ofDescriptor (text : String) : Except DescriptorFault Ty := descriptorOf text.toList

def parametersStart (cs : List Char) : Except DescriptorFault (List Ty × List Char) :=
  if cs.head? = some ')' then .ok ([], cs.tail)
  else match _ : descriptorStart cs with
    | .error e => .error e
    | .ok (t, after) => match parametersStart after with
      | .ok (ts, rest) => .ok (t :: ts, rest)
      | .error e => .error e
termination_by cs.length
decreasing_by exact descriptorStart_length ‹_›

def ofMethodDescriptor (text : String) : Except DescriptorFault (List Ty × Ty) :=
  match text.toList with
  | '(' :: rest => match parametersStart rest with
    | .error e => .error e
    | .ok (params, rest) => match descriptorOf rest with
      | .ok ret => .ok (params, ret)
      | .error e => .error e
  | _ => .error .malformed

def plainDescriptor : Ty → String
  | .void => "V"
  | .boolean => "Z"
  | .byte => "B"
  | .short => "S"
  | .char => "C"
  | .int => "I"
  | .long => "J"
  | .float => "F"
  | .double => "D"
  | .object name => "L" ++ slashed name ++ ";"
  | .array _ | .narrow _ | .unknown | .conflict => "L" ++ slashed objectClass ++ ";"

/-- The descriptor of a type. An undecided type has the one of the type taken in its place. -/
def descriptor : Ty → String
  | .array t => "[" ++ descriptor t
  | t => t.resolved.plainDescriptor

def methodDescriptor (params : List Ty) (ret : Ty) : String :=
  "(" ++ String.join (params.map descriptor) ++ ")" ++ ret.descriptor

end Ty

end JavaLift
