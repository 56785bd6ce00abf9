import JavaLift.Proofs.Dalvik.Reading
import JavaLift.Proofs.Listing
import JavaLift.Proofs.Source.Signs

namespace JavaLift

open Text

namespace Writer

/-- What stands between the first and the last line of the comment. -/
def inComment (w : Writer) (reason : String) (listing : List String) : Writer :=
  let w := w.addLine (" * Method decompilation failed: " ++ reason)
  if listing.isEmpty then w else listing.foldl (fun w line => w.addLine (" *   " ++ line)) (w.addLine " *")

theorem addFailure_eq (w : Writer) (reason : String) (listing : List String) :
    w.addFailure reason listing = ((w.addLine "/*").inComment reason listing).addLine " */" := rfl

end Writer

namespace Source

/-- Text is added that begins a line and closes a comment exactly under a condition. -/
def Adds (w w' : Writer) (p : Prop) : Prop :=
  ∃ s, Writes w w' s ∧ s.toList.head? = some '\n' ∧ (Closes s.toList ↔ p)

namespace Adds

variable {w w' w'' : Writer} {p q : Prop}

theorem trans (h : Adds w w' p) (h' : Adds w' w'' q) : Adds w w'' (p ∨ q) := by
  obtain ⟨s, hs, hhead, hp⟩ := h
  obtain ⟨t, ht, hhead', hq⟩ := h'
  refine ⟨s ++ t, hs.trans ht, ?_, ?_⟩
  · rw [String.toList_append, List.head?_append, hhead]
    rfl
  · rw [String.toList_append, closes_apart (.inr (by simp [hhead'])), hp, hq]

theorem lead_eq (h : w.fresh = false) : ∃ indent, Inert ('\n' :: indent) ∧ (lead w).toList = '\n' :: indent := by
  refine ⟨List.replicate (w.depth * w.indent) ' ', fun c hc => ?_, by simp [lead, h]⟩
  rcases List.mem_cons.mp hc with rfl | hc
  · decide
  · rw [List.eq_of_mem_replicate hc]
    decide

theorem addLine (h : w.fresh = false) (word text : String) (hword : ¬ Closes word.toList)
    (hborder : word.toList.getLast? ≠ some '*' ∨ text.toList.head? ≠ some '/') :
    Adds w (w.addLine (word ++ text)) (Closes text.toList) := by
  obtain ⟨indent, hindent, hlead⟩ := lead_eq h
  refine ⟨_, Writes.addLine w _, by simp [hlead], ?_⟩
  rw [String.toList_append, hlead, closes_inert_append, String.toList_append, closes_apart hborder, or_iff_right hword]
  exact hindent

theorem fresh (h : Adds w w' p) : w'.fresh = false := h.choose_spec.1.fresh

theorem listing (lines : List String) (h : Adds w w' p) :
    Adds w (lines.foldl (fun w line => w.addLine (" *   " ++ line)) w') (p ∨ ∃ line ∈ lines, Closes line.toList) := by
  induction lines generalizing w' p with
  | nil => simpa using h
  | cons line rest ih =>
      have hline := h.trans (addLine h.fresh " *   " line (by simp [closes_cons]) (.inl (by simp)))
      simpa [or_assoc] using ih hline

/-- The lines of a comment before its last close it where the reason or a line of the listing does. -/
theorem inComment (h : w.fresh = false) (reason : String) (lines : List String) :
    Adds w (w.inComment reason lines) (Closes reason.toList ∨ ∃ line ∈ lines, Closes line.toList) := by
  have hreason : Adds w (w.addLine (" * Method decompilation failed: " ++ reason)) (Closes reason.toList) :=
    addLine h " * Method decompilation failed: " reason (by simp [closes_cons]) (.inl (by simp))
  cases lines with
  | nil => simpa [Writer.inComment] using hreason
  | cons line rest =>
      have hempty := addLine hreason.fresh " *" "" (by simp [closes_cons]) (.inr (by simp))
      simpa [Writer.inComment] using (hreason.trans hempty).listing (line :: rest)

end Adds

variable (s : Signature) (style : Style)

def failureHead : Writer := ((writeSignature style.writer s (paramNames s)).add " \x7b").deeper

/-- In the text of a failed method the comment is closed by its own last line, and by nothing before that. -/
def ClosedAtItsEnd (reason : String) (listing : List String) : Prop :=
  ∃ inside rest : List Char,
    ((failureHead s style).addFailure reason listing).code.toList =
      ((failureHead s style).addLine "/*").code.toList ++ inside ++ ['*', '/'] ∧
    (fallback s reason listing style).code.toList =
      ((failureHead s style).addFailure reason listing).code.toList ++ rest ∧
    ∀ before after, inside ++ ['*', '/'] ++ rest = before ++ ['*', '/'] ++ after → inside.length ≤ before.length

theorem closedAtItsEnd_iff (reason : String) (listing : List String) :
    ClosedAtItsEnd s style reason listing ↔ ¬ Closes reason.toList ∧ ∀ line ∈ listing, ¬ Closes line.toList := by
  obtain ⟨lines, hlines, -, hcloses⟩ :=
    Adds.inComment (w := (failureHead s style).addLine "/*") rfl reason listing
  obtain ⟨indent, hindent, hlead⟩ := Adds.lead_eq hlines.fresh
  -- Up to the last line the comment goes on with the line's indentation and a blank.
  obtain ⟨inside, hinside⟩ : ∃ inside, inside = lines.toList ++ ('\n' :: indent ++ [' ']) := ⟨_, rfl⟩
  have hclosed : ((failureHead s style).addFailure reason listing).code.toList =
      ((failureHead s style).addLine "/*").code.toList ++ inside ++ ['*', '/'] := by
    rw [Writer.addFailure_eq, (Writes.addLine _ " */").code, hlines.code, hinside]
    simp [hlead]
  have htext : (fallback s reason listing style).code.toList =
      ((failureHead s style).addFailure reason listing).code.toList ++
        (lead ((failureHead s style).addFailure reason listing).shallower ++ "\x7d").toList := by
    have hend := Writes.addLine ((failureHead s style).addFailure reason listing).shallower "\x7d"
    rw [← String.toList_append]
    exact congrArg String.toList ((Writes.code_finish _).trans hend.code)
  have hline : Closes inside ↔ Closes reason.toList ∨ ∃ line ∈ listing, Closes line.toList := by
    rw [hinside, closes_append_inert, hcloses]
    exact hindent.append (inert_of_all (by simp))
  have hiff : ¬ Closes inside ↔ ¬ Closes reason.toList ∧ ∀ line ∈ listing, ¬ Closes line.toList := by
    rw [hline, not_or]
    simp only [not_exists, not_and]
  rw [← hiff]
  constructor
  · rintro ⟨inside', rest, hclosed', -, hfirst⟩
    have heq : inside' = inside := by simpa using hclosed'.symm.trans hclosed
    exact heq ▸ first_closes_iff.mp hfirst
  · exact fun h => ⟨inside, _, hclosed, htext, first_closes_iff.mpr h⟩

theorem fallback_closedAtItsEnd_iff (reason : String) (code : RawCode) (pool : Pool) :
    ClosedAtItsEnd s style reason (code.listing pool) ↔
      ¬ Closes reason.toList ∧ ∀ name ∈ code.names pool, ¬ Closes name.toList := by
  have hlisting : (∀ line ∈ code.listing pool, ¬ Closes line.toList) ↔ ∀ name ∈ code.names pool, ¬ Closes name.toList := by
    simpa only [not_exists, not_and] using not_congr (code.closes_listing pool)
  rw [closedAtItsEnd_iff, hlisting]

/-- A method that loads the name of all types of media and then jumps out of its code. -/
def anyMedia : RawCode := ⟨.dalvik, 1, 0, #[0x1a, 0x00, 0x00, 0x00, 0x29, 0x00, 0x40, 0x00], [], []⟩

theorem not_closedAtItsEnd_anyMedia :
    ¬ ClosedAtItsEnd ⟨"a.B", "m", [], .void, ⟨8⟩⟩ ⟨4, 1, false⟩ (Failure.inconsistent (.targetOutside 0x42 2)).message
      (anyMedia.listing (.tables ⟨#["*/*"], #[], #[], #[]⟩)) := by
  obtain ⟨pool, hpool⟩ : ∃ pool, pool = Pool.tables ⟨#["*/*"], #[], #[], #[]⟩ := ⟨_, rfl⟩
  have hopcode : Dalvik.Opcode.ofByte? 0x1a = some .constString :=
    Dalvik.Opcode.ofByte?_byte .constString (by decide)
  have hfirst : Dalvik.Code.unit #[0x1a, 0, 0x29, 0x40] 0 0 = .ok 0x1a := by simp [Dalvik.Code.unit]
  have hsecond : Dalvik.Code.unit #[0x1a, 0, 0x29, 0x40] 0 1 = .ok 0 := by simp [Dalvik.Code.unit]
  have hstring : pool.string? 0 = some "*/*" := by simp [hpool, Pool.string?]
  have hload : Dalvik.decodeAt #[0x1a, 0, 0x29, 0x40] pool 0 =
      .ok ⟨.insn (.of (.constString "*/*") [] (some (.typed 0 (.object Ty.stringClass))) 0), 1⟩ := by
    have hbyte : 0x1a % 256 = 0x1a := rfl
    rw [Dalvik.decodeAt, hfirst, Dalvik.ok_bind, hbyte, hopcode]
    simp only [Dalvik.decodeOpcode, Nat.zero_add, hsecond, Dalvik.ok_bind, hstring, Dalvik.reference]
  have hname : "*/*" ∈ anyMedia.names pool := by
    have hformat : anyMedia.format = .dalvik := rfl
    have hunits : Dalvik.Code.ofBytes anyMedia.bytes = .ok #[0x1a, 0, 0x29, 0x40] := rfl
    simp only [RawCode.names, hformat, hunits]
    rw [Dalvik.namesFrom, if_pos (by decide), hload]
    exact List.mem_append_left _ (by simp [Dalvik.Item.names, Insn.of, Op.names])
  obtain ⟨line, hline, hcloses⟩ := (anyMedia.closes_listing pool).mpr ⟨_, hname, by simp [closes_cons]⟩
  rw [← hpool, closedAtItsEnd_iff]
  exact fun h => h.2 line hline hcloses

end Source

end JavaLift
