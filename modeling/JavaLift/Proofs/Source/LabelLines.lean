import JavaLift.Proofs.Source.Nesting
import JavaLift.Proofs.Text.Comment

namespace JavaLift.Source

def firstWord (s : String) : List Char := s.toList.takeWhile (· != ' ')

def lastWord (s : String) : List Char := s.toList.rtakeWhile (· != ' ')

def labelBefore? (sign : Char) (word : List Char) : Option String :=
  if "L_".toList.isPrefixOf word && word.getLast? == some sign then some (.ofList word.dropLast) else none

inductive LabelUse where
  | begins (name : String)
  | jumps (name : String)
deriving DecidableEq

namespace LabelUse

def begun? : LabelUse → Option String
  | .begins name => some name
  | .jumps _ => none

def target? : LabelUse → Option String
  | .begins _ => none
  | .jumps name => some name

/-- What a line with a given beginning and a given end does with a label. -/
def ofLine? (front back : String) : Option LabelUse :=
  if opensBlock back then (labelBefore? ':' (firstWord front)).map .begins
  else (labelBefore? ';' (lastWord back)).map .jumps

end LabelUse

def Phrase.firstText (p : Phrase) : String :=
  match p.pieces.head? with
  | some (.text s) => s
  | _ => ""

def Item.labelUse? : Item → Option LabelUse
  | .line s => LabelUse.ofLine? s s
  | .marked c => LabelUse.ofLine? c.phrase.firstText (c.phrase.lastText?.getD "")
  | _ => none

theorem labelName_injective : Function.Injective labelName := by
  intro m n h
  have hlist := congrArg String.toList h
  rw [labelName, labelName, String.toList_append, String.toList_append] at hlist
  exact Text.offset_injective (String.toList_inj.mp (List.append_cancel_left hlist))

theorem toList_labelName (n : Nat) : (labelName n).toList = 'L' :: '_' :: (Text.offset n).toList := by
  rw [labelName, String.toList_append]
  rfl

theorem ne_blank_of_mem_labelName (n : Nat) : ∀ c ∈ (labelName n).toList, c ≠ ' ' := by
  rw [toList_labelName]
  refine List.forall_mem_cons.mpr ⟨by decide, List.forall_mem_cons.mpr ⟨by decide, ?_⟩⟩
  exact Text.forall_mem_offset (by decide) (by decide) n

theorem labelBefore?_labelName (sign : Char) (n : Nat) :
    labelBefore? sign ((labelName n).toList ++ [sign]) = some (labelName n) := by
  have hfront : "L_".toList.isPrefixOf ((labelName n).toList ++ [sign]) = true := by
    rw [toList_labelName]
    rfl
  rw [labelBefore?, hfront, List.getLast?_concat, List.dropLast_concat, String.ofList_toList]
  simp

theorem firstWord_eq {s : String} {word rest : List Char} (h : s.toList = word ++ ' ' :: rest)
    (hw : ∀ c ∈ word, c ≠ ' ') : firstWord s = word := by
  rw [firstWord, h, List.takeWhile_append_of_pos (by simpa using hw)]
  simp

theorem lastWord_eq {s : String} {word rest : List Char} (h : s.toList = rest ++ ' ' :: word)
    (hw : ∀ c ∈ word, c ≠ ' ') : lastWord s = word := by
  rw [lastWord, h, List.rtakeWhile, List.reverse_append, List.reverse_cons, List.append_assoc,
    List.takeWhile_append_of_pos (by simpa using hw)]
  simp

theorem getLast?_lastWord {s : String} {c : Char} (h : s.toList.getLast? = some c) (hc : c ≠ ' ') :
    (lastWord s).getLast? = some c := by
  obtain ⟨cs, hcs⟩ := List.getLast?_eq_some_iff.mp h
  have hc' : (c != ' ') = true := by simpa using hc
  rw [lastWord, hcs, List.rtakeWhile_concat, if_pos hc', List.getLast?_concat]

namespace LabelUse

variable {front back s : String}

/-- A line that ends in a semicolon after something else than a label. -/
theorem ofLine?_of_lastWord (hopens : opensBlock back = false) (h : labelBefore? ';' (lastWord back) = none) :
    ofLine? front back = none := by
  rw [ofLine?, hopens, h]
  rfl

/-- A line that ends otherwise has no label. -/
theorem ofLine?_of_getLast? {c : Char} (h : back.toList.getLast? = some c) (hblank : c ≠ ' ') (hbrace : c ≠ '\x7b')
    (hsign : c ≠ ';') : ofLine? front back = none := by
  have hopens : opensBlock back = false := by
    rw [opensBlock, h]
    simpa using hbrace
  have hnone : labelBefore? ';' (lastWord back) = none := by
    have hlast : ((lastWord back).getLast? == some ';') = false := by
      rw [getLast?_lastWord h hblank]
      simpa using hsign
    rw [labelBefore?, hlast]
    simp
  exact ofLine?_of_lastWord hopens hnone

theorem ofLine?_jump (word : List Char) {n : Nat} (h : back.toList = word ++ ' ' :: ((labelName n).toList ++ [';'])) :
    ofLine? front back = some (.jumps (labelName n)) := by
  have hlast : back.toList.getLast? = some ';' := by
    rw [h, ← List.cons_append, ← List.append_assoc, List.getLast?_concat]
  have hopens : opensBlock back = false := by
    rw [opensBlock, hlast]
    rfl
  have hword : ∀ c ∈ (labelName n).toList ++ [';'], c ≠ ' ' :=
    List.forall_mem_append.mpr ⟨ne_blank_of_mem_labelName n, List.forall_mem_singleton.mpr (by decide)⟩
  rw [ofLine?, hopens, lastWord_eq h hword, labelBefore?_labelName]
  rfl

theorem ofLine?_goto (s : String) (n : Nat) :
    ofLine? front (s ++ ("goto " ++ labelName n ++ ";")) = some (.jumps (labelName n)) := by
  refine ofLine?_jump (s.toList ++ "goto".toList) ?_
  simp

theorem ofLine?_begins {n : Nat} (hopens : opensBlock back = true) :
    ofLine? (labelName n ++ ": " ++ s) back = some (.begins (labelName n)) := by
  have hword : ∀ c ∈ (labelName n).toList ++ [':'], c ≠ ' ' :=
    List.forall_mem_append.mpr ⟨ne_blank_of_mem_labelName n, List.forall_mem_singleton.mpr (by decide)⟩
  have hfront : (labelName n ++ ": " ++ s).toList = ((labelName n).toList ++ [':']) ++ ' ' :: s.toList := by simp
  rw [ofLine?, hopens, firstWord_eq hfront hword, labelBefore?_labelName]
  rfl

end LabelUse

end JavaLift.Source
