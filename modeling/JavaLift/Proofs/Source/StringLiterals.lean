import JavaLift.Proofs.Source.Tokens

/-!
String literals. Java reads a text in two goes: the escapes of code units are replaced first, and then the escapes of
the literal. Both together give the string back from its literal, whatever characters it consists of.
-/

namespace JavaLift.Source

def codeUnits (c : Char) : List Nat :=
  if c.toNat < 0x10000 then [c.toNat]
  else [0xd800 + (c.toNat - 0x10000) / 0x400, 0xdc00 + (c.toNat - 0x10000) % 0x400]

def utf16 (cs : List Char) : List Nat := cs.flatMap codeUnits

/-- The code units of source text. A backslash and `u` begin the escape of a unit if an even number of backslashes
stands right before them; `odd` says that an odd number stands before the text. -/
def translate? (odd : Bool) : List Char → Option (List Nat)
  | [] => some []
  | c :: cs =>
    if c ≠ '\\' then (translate? false cs).map (codeUnits c ++ ·)
    else if odd ∨ cs.head? ≠ some 'u' then (translate? (!odd) cs).map ('\\'.toNat :: ·)
    else match h : cs.dropWhile (· == 'u') with
      | d₃ :: d₂ :: d₁ :: d₀ :: rest => do
        let unit := 4096 * (← hexValue? d₃) + 256 * (← hexValue? d₂) + 16 * (← hexValue? d₁) + (← hexValue? d₀)
        (translate? false rest).map (unit :: ·)
      | _ => none
termination_by cs => cs.length
decreasing_by
  · simp
  · simp
  · have hle := (List.dropWhile_sublist (l := cs) (· == 'u')).length_le
    rw [h] at hle
    simp only [List.length_cons] at hle ⊢
    omega

def escaped? (u : Nat) : Option Nat := (escapes.find? fun e => e.1.toNat == u).map Prod.snd

/-- A string literal behind its first quote. The next quote ends it, and the text with it; `behind` says that a backslash
stands right before the text. -/
def contents? (behind : Bool) : List Nat → Option (List Nat)
  | [] => none
  | u :: us =>
    if behind then do
      let w ← escaped? u
      (contents? false us).map (w :: ·)
    else if u = '\\'.toNat then contents? true us
    else if u = '"'.toNat then if us = [] then some [] else none
    else if u = '\n'.toNat ∨ u = '\r'.toNat then none
    else (contents? false us).map (u :: ·)

def denoted? (literal : String) : Option (List Nat) := do
  let us ← translate? false literal.toList
  if us.head? = some '"'.toNat then contents? false us.tail else none

theorem translate?_plain {c : Char} (h : c ≠ '\\') (odd : Bool) (cs : List Char) :
    translate? odd (c :: cs) = (translate? false cs).map (codeUnits c ++ ·) := by
  rw [translate?, if_pos h]

theorem translate?_backslash {odd : Bool} {cs : List Char} (h : odd = true ∨ cs.head? ≠ some 'u') :
    translate? odd ('\\' :: cs) = (translate? (!odd) cs).map ('\\'.toNat :: ·) := by
  rw [translate?, if_neg (not_not_intro rfl), if_pos h]

theorem digitChar_plain : ∀ n < 16, (n.digitChar == 'u') = false ∧ n.digitChar ≠ '"' ∧ n.digitChar ≠ '\\' ∧
    0x20 ≤ n.digitChar.toNat ∧ n.digitChar.toNat ≠ 0x7f := by decide

theorem translate?_unitEscape {n : Nat} (hn : n < 2 ^ 16) (rest : List Char) :
    translate? false ((unitEscape n).toList ++ rest) = (translate? false rest).map (n :: ·) := by
  have hvalue {m : Nat} (hm : m < 16) := hexValue?_digitChar m hm
  have hfirst := (digitChar_plain (n / 4096) (by omega)).1
  have htext : (unitEscape n).toList = '\\' :: 'u' :: (Text.hex 4 n).toList := by
    rw [unitEscape, String.toList_append]
    rfl
  have hdrop : ('u' :: ((Text.hex 4 n).toList ++ rest)).dropWhile (· == 'u') = (Text.hex 4 n).toList ++ rest := by
    rw [hex_four hn, List.dropWhile_cons_of_pos (by decide), List.cons_append, List.dropWhile_cons_of_neg (by simp [hfirst])]
  rw [htext, List.cons_append, List.cons_append, translate?, if_neg (not_not_intro rfl), if_neg (by simp)]
  split
  · rename_i d₃ d₂ d₁ d₀ rest' heq
    rw [hdrop, hex_four hn] at heq
    simp only [List.cons_append, List.nil_append, List.cons.injEq] at heq
    obtain ⟨rfl, rfl, rfl, rfl, rfl⟩ := heq
    rw [hvalue (by omega), hvalue (by omega), hvalue (by omega), hvalue (by omega)]
    change (translate? false rest).map _ = _
    congr 1
    funext us
    congr 1
    omega
  · rename_i hno
    exact absurd (hdrop.trans (by rw [hex_four hn]; rfl)) (hno _ _ _ _ _)

/-- The text is read as the code units, in both goes, wherever it stands. -/
def Denotes (cs : List Char) (units : List Nat) : Prop :=
  ∃ us, (∀ rest, translate? false (cs ++ rest) = (translate? false rest).map (us ++ ·)) ∧
    ∀ vs, contents? false (us ++ vs) = (contents? false vs).map (units ++ ·)

namespace Denotes

theorem nil : Denotes [] [] := ⟨[], fun _ => by simp, fun _ => by simp⟩

theorem append {cs ds : List Char} {units units' : List Nat} (h : Denotes cs units) (h' : Denotes ds units') :
    Denotes (cs ++ ds) (units ++ units') := by
  obtain ⟨us, hfirst, hsecond⟩ := h
  obtain ⟨us', hfirst', hsecond'⟩ := h'
  refine ⟨us ++ us', ?_, ?_⟩
  · intro rest
    rw [List.append_assoc, hfirst, hfirst', Option.map_map]
    congr 1
    funext vs
    exact (List.append_assoc us us' vs).symm
  · intro vs
    rw [List.append_assoc, hsecond, hsecond', Option.map_map]
    congr 1
    funext ws
    exact (List.append_assoc units units' ws).symm

/-- Units other than quotes, backslashes and line ends stand for themselves. -/
theorem contents?_plain {us : List Nat} (h : ∀ u ∈ us, u ∉ [34, 92, 10, 13]) (vs : List Nat) :
    contents? false (us ++ vs) = (contents? false vs).map (us ++ ·) := by
  induction us with
  | nil => simp
  | cons u us ih =>
      rw [List.forall_mem_cons] at h
      obtain ⟨hb, hq, hline⟩ : u ≠ '\\'.toNat ∧ u ≠ '"'.toNat ∧ ¬(u = '\n'.toNat ∨ u = '\r'.toNat) := by
        have hne := h.1
        simp only [List.mem_cons, List.not_mem_nil, or_false, not_or] at hne
        exact ⟨hne.2.1, hne.1, not_or.mpr hne.2.2⟩
      rw [List.cons_append, contents?, if_neg Bool.false_ne_true, if_neg hb, if_neg hq, if_neg hline, ih h.2,
        Option.map_map]
      rfl

theorem escape {c x : Char} (hx : x ≠ 'u') (hunits : codeUnits x = [x.toNat]) (h : escaped? x.toNat = some c.toNat)
    (hc : codeUnits c = [c.toNat]) : Denotes ['\\', x] (codeUnits c) := by
  refine ⟨['\\'.toNat, x.toNat], ?_, ?_⟩
  · intro rest
    have hsecond : translate? true (x :: rest) = (translate? false rest).map (x.toNat :: ·) := by
      by_cases hb : x = '\\'
      · subst hb
        exact translate?_backslash (.inl rfl)
      · rw [translate?_plain hb, hunits]
        rfl
    rw [List.cons_append, List.cons_append, List.nil_append, translate?_backslash (.inr (by simp [hx])), Bool.not_false,
      hsecond, Option.map_map]
    rfl
  · intro vs
    rw [List.cons_append, List.cons_append, List.nil_append, contents?, if_neg Bool.false_ne_true, if_pos rfl, contents?,
      if_pos rfl, h, hc]
    rfl

theorem unit {c : Char} (h : c.toNat < 0x20 ∨ c.toNat = 0x7f) (hline : c ≠ '\n' ∧ c ≠ '\r') :
    Denotes (unitEscape c.toNat).toList (codeUnits c) := by
  have hunits : codeUnits c = [c.toNat] := if_pos (by omega)
  have hne : c.toNat ≠ 10 ∧ c.toNat ≠ 13 := by
    constructor
    · exact fun he => hline.1 (Char.toNat_inj.mp he)
    · exact fun he => hline.2 (Char.toNat_inj.mp he)
  refine ⟨[c.toNat], fun rest => translate?_unitEscape (by omega) rest, fun vs => ?_⟩
  rw [hunits]
  apply contents?_plain
  rw [List.forall_mem_singleton]
  simp only [List.mem_cons, List.not_mem_nil, or_false]
  omega

theorem plain {c : Char} (hq : c ≠ '"') (hb : c ≠ '\\') (hline : c ≠ '\n' ∧ c ≠ '\r') :
    Denotes [c] (codeUnits c) := by
  refine ⟨codeUnits c, fun rest => translate?_plain hb false rest, contents?_plain ?_⟩
  have hne : c.toNat ≠ 34 ∧ c.toNat ≠ 92 ∧ c.toNat ≠ 10 ∧ c.toNat ≠ 13 := by
    refine ⟨?_, ?_, ?_, ?_⟩
    · exact fun he => hq (Char.toNat_inj.mp he)
    · exact fun he => hb (Char.toNat_inj.mp he)
    · exact fun he => hline.1 (Char.toNat_inj.mp he)
    · exact fun he => hline.2 (Char.toNat_inj.mp he)
  intro u hu
  unfold codeUnits at hu
  simp only [List.mem_cons, List.not_mem_nil, or_false]
  split at hu
  · obtain rfl := List.mem_singleton.mp hu
    omega
  · simp only [List.mem_cons, List.not_mem_nil, or_false] at hu
    omega

end Denotes

/-- The characters inside a literal by their kinds: those with a letter for them, control characters, and the rest. -/
theorem escapeChar_cases (c : Char) :
    (∃ x, escapeChar c = ['\\', x] ∧ (x, c) ∈ [('"', '"'), ('\\', '\\'), ('n', '\n'), ('r', '\r'), ('t', '\t')]) ∨
    (escapeChar c = (unitEscape c.toNat).toList ∧ (c.toNat < 0x20 ∨ c.toNat = 0x7f) ∧ c ≠ '\n' ∧ c ≠ '\r') ∨
    (escapeChar c = [c] ∧ 0x20 ≤ c.toNat ∧ c.toNat ≠ 0x7f ∧ c ≠ '"' ∧ c ≠ '\\') := by
  unfold escapeChar
  split
  · exact .inl ⟨'"', rfl, by simp⟩
  · exact .inl ⟨'\\', rfl, by simp⟩
  · exact .inl ⟨'n', rfl, by simp⟩
  · exact .inl ⟨'r', rfl, by simp⟩
  · exact .inl ⟨'t', rfl, by simp⟩
  · rename_i hq hb hn hr _
    split
    · exact .inr (.inl ⟨rfl, ‹_›, hn, hr⟩)
    · rename_i hcontrol
      exact .inr (.inr ⟨rfl, by omega, by omega, hq, hb⟩)

theorem denotes_escapeChar (c : Char) : Denotes (escapeChar c) (codeUnits c) := by
  rcases escapeChar_cases c with ⟨x, htext, hmem⟩ | ⟨htext, hcontrol, hline⟩ | ⟨htext, hge, hne, hq, hb⟩
  · rw [htext]
    simp only [List.mem_cons, Prod.mk.injEq, List.not_mem_nil, or_false] at hmem
    rcases hmem with ⟨rfl, rfl⟩ | ⟨rfl, rfl⟩ | ⟨rfl, rfl⟩ | ⟨rfl, rfl⟩ | ⟨rfl, rfl⟩ <;>
      exact .escape (by decide) rfl rfl rfl
  · rw [htext]
    exact .unit hcontrol hline
  · rw [htext]
    refine .plain hq hb ⟨?_, ?_⟩
    · rintro rfl
      exact absurd hge (by decide)
    · rintro rfl
      exact absurd hge (by decide)

theorem denotes_escaped (cs : List Char) : Denotes (cs.flatMap escapeChar) (utf16 cs) := by
  induction cs with
  | nil => exact .nil
  | cons c cs ih => exact (denotes_escapeChar c).append ih

theorem denoted?_stringLiteral (s : String) : denoted? (stringLiteral s) = some (utf16 s.toList) := by
  obtain ⟨us, hfirst, hsecond⟩ := denotes_escaped s.toList
  have hquote : codeUnits '"' = ['"'.toNat] := rfl
  have hend : translate? false ['"'] = some ['"'.toNat] := by
    rw [translate?_plain (by decide), translate?, hquote]
    rfl
  have htext : translate? false (stringLiteral s).toList = some ('"'.toNat :: (us ++ ['"'.toNat])) := by
    rw [stringLiteral, String.toList_ofList, List.cons_append, translate?_plain (by decide), hfirst, hend, hquote]
    rfl
  rw [denoted?, htext]
  change contents? false (us ++ ['"'.toNat]) = _
  rw [hsecond, contents?, if_neg Bool.false_ne_true, if_neg (by decide), if_pos rfl, if_pos rfl, Option.map_some,
    List.append_nil]

theorem codeUnits_append {c d : Char} {us vs : List Nat} (h : codeUnits c ++ us = codeUnits d ++ vs) :
    c = d ∧ us = vs := by
  have hc : c.toNat < 0xd800 ∨ 0xdfff < c.toNat ∧ c.toNat < 0x110000 := c.valid
  have hd : d.toNat < 0xd800 ∨ 0xdfff < d.toNat ∧ d.toNat < 0x110000 := d.valid
  unfold codeUnits at h
  -- The halves of a pair are no characters of their own.
  split at h <;> split at h <;> simp only [List.cons_append, List.nil_append, List.cons.injEq] at h
  · exact ⟨Char.toNat_inj.mp h.1, h.2⟩
  · omega
  · omega
  · exact ⟨Char.toNat_inj.mp (by omega), h.2.2⟩

theorem utf16_injective : Function.Injective utf16 := by
  intro cs ds h
  have hne (c : Char) (us : List Nat) : codeUnits c ++ us ≠ [] := by
    unfold codeUnits
    split <;> simp
  induction cs generalizing ds with
  | nil =>
      cases ds with
      | nil => rfl
      | cons d ds => exact absurd h.symm (hne d _)
  | cons c cs ih =>
      cases ds with
      | nil => exact absurd h (hne c _)
      | cons d ds =>
          obtain ⟨rfl, hrest⟩ := codeUnits_append h
          rw [ih hrest]

/-- A character is escaped if an odd number of backslashes stands right before it. -/
def IsEscaped (before : List Char) : Prop := Odd (before.rtakeWhile (· == '\\')).length

theorem not_isEscaped_nil : ¬ IsEscaped [] := by simp [IsEscaped]

theorem isEscaped_concat {before : List Char} {c : Char} :
    IsEscaped (before ++ [c]) ↔ c = '\\' ∧ ¬ IsEscaped before := by
  unfold IsEscaped
  rw [List.rtakeWhile_concat]
  split
  · rename_i hc
    rw [List.length_append, List.length_singleton, Nat.odd_add_one, and_iff_right (beq_iff_eq.mp hc)]
  · rename_i hc
    simp only [List.length_nil, Nat.not_odd_zero, false_iff, not_and]
    exact fun he => absurd (beq_iff_eq.mpr he) hc

/-- What may stand between the quotes: a quote only if it is escaped, a backslash only if it is escaped or begins an
escape, and no control character. -/
structure MayStand (before : List Char) (c : Char) (after : List Char) : Prop where
  quote : c = '"' → IsEscaped before
  backslash : c = '\\' → IsEscaped before ∨ ∃ x ∈ ['"', '\\', 'n', 'r', 't', 'u'], after.head? = some x
  control : 0x20 ≤ c.toNat ∧ c.toNat ≠ 0x7f

theorem MayStand.append {before after : List Char} {c : Char} (h : MayStand before c after) (rest : List Char) :
    MayStand before c (after ++ rest) := by
  refine ⟨h.quote, fun hc => ?_, h.control⟩
  rcases h.backslash hc with hescaped | ⟨x, hx, hhead⟩
  · exact .inl hescaped
  · refine .inr ⟨x, hx, ?_⟩
    rw [List.head?_append, hhead, Option.some_or]

def Sealed (cs : List Char) : Prop := ∀ front, ¬ IsEscaped front →
  ¬ IsEscaped (front ++ cs) ∧ ∀ before c after, cs = before ++ c :: after → MayStand (front ++ before) c after

namespace Sealed

theorem nil : Sealed [] := fun front h => ⟨by rwa [List.append_nil], fun before c after he => by simp at he⟩

theorem append {cs ds : List Char} (h : Sealed cs) (h' : Sealed ds) : Sealed (cs ++ ds) := by
  intro front hfront
  obtain ⟨hmiddle, hin⟩ := h front hfront
  obtain ⟨hend, hin'⟩ := h' (front ++ cs) hmiddle
  refine ⟨by rwa [← List.append_assoc], fun before c after he => ?_⟩
  rcases List.append_eq_append_iff.mp he with ⟨mid, rfl, hds⟩ | ⟨mid, hcs, hds⟩
  · rw [← List.append_assoc]
    exact hin' mid c after hds
  · cases mid with
    | nil =>
        have hstand := hin' [] c after (by simpa using hds.symm)
        rw [List.append_nil] at hcs hstand
        rwa [← hcs]
    | cons d mid =>
        obtain ⟨rfl, rfl⟩ := List.cons.inj hds
        exact (hin before c mid hcs).append ds

theorem plain {c : Char} (hq : c ≠ '"') (hb : c ≠ '\\') (hcontrol : 0x20 ≤ c.toNat ∧ c.toNat ≠ 0x7f) :
    Sealed [c] := by
  intro front _
  refine ⟨fun he => hb (isEscaped_concat.mp he).1, fun before d after he => ?_⟩
  obtain ⟨rfl, hrest⟩ | ⟨mid, rfl, hrest⟩ := List.cons_eq_append_iff.mp he
  · obtain ⟨rfl, rfl⟩ := List.cons.inj hrest
    exact ⟨fun h => absurd h hq, fun h => absurd h hb, hcontrol⟩
  · simp at hrest

theorem escape {x : Char} (hx : x ∈ ['"', '\\', 'n', 'r', 't', 'u']) : Sealed ['\\', x] := by
  intro front hfront
  have hfirst : IsEscaped (front ++ ['\\']) := isEscaped_concat.mpr ⟨rfl, hfront⟩
  have hcontrol : 0x20 ≤ x.toNat ∧ x.toNat ≠ 0x7f := by
    simp only [List.mem_cons, List.not_mem_nil, or_false] at hx
    rcases hx with rfl | rfl | rfl | rfl | rfl | rfl <;> decide
  refine ⟨fun he => ?_, fun before d after he => ?_⟩
  · rw [show front ++ ['\\', x] = front ++ ['\\'] ++ [x] by simp] at he
    exact (isEscaped_concat.mp he).2 hfirst
  · obtain ⟨rfl, hrest⟩ | ⟨mid, rfl, hrest⟩ := List.cons_eq_append_iff.mp he
    · obtain ⟨rfl, rfl⟩ := List.cons.inj hrest
      exact ⟨fun h => absurd h (by decide), fun _ => .inr ⟨x, hx, rfl⟩, by decide⟩
    · obtain ⟨rfl, hrest⟩ | ⟨mid, rfl, hrest⟩ := List.cons_eq_append_iff.mp hrest
      · obtain ⟨rfl, rfl⟩ := List.cons.inj hrest
        exact ⟨fun _ => hfirst, fun _ => .inl hfirst, hcontrol⟩
      · simp at hrest

theorem unit {n : Nat} (hn : n < 2 ^ 16) : Sealed (unitEscape n).toList := by
  have hdigit {m : Nat} (hm : m < 16) : Sealed [m.digitChar] := by
    obtain ⟨-, hq, hb, hcontrol⟩ := digitChar_plain m hm
    exact .plain hq hb hcontrol
  have hmark : Sealed ['\\', 'u'] := .escape (by decide)
  have htext : (unitEscape n).toList = ['\\', 'u'] ++ ([(n / 4096).digitChar] ++ ([(n / 256 % 16).digitChar] ++
      ([(n / 16 % 16).digitChar] ++ [(n % 16).digitChar]))) := by
    rw [unitEscape, String.toList_append, hex_four hn]
    rfl
  rw [htext]
  refine hmark.append ((hdigit ?_).append ((hdigit ?_).append ((hdigit ?_).append (hdigit ?_)))) <;> omega

theorem escapeChar (c : Char) : Sealed (escapeChar c) := by
  rcases escapeChar_cases c with ⟨x, htext, hmem⟩ | ⟨htext, hcontrol, -⟩ | ⟨htext, hge, hne, hq, hb⟩
  · rw [htext]
    apply escape
    simp only [List.mem_cons, Prod.mk.injEq, List.not_mem_nil, or_false] at hmem ⊢
    tauto
  · rw [htext]
    exact unit (by omega)
  · rw [htext]
    exact plain hq hb ⟨hge, hne⟩

theorem escaped (cs : List Char) : Sealed (cs.flatMap Source.escapeChar) := by
  induction cs with
  | nil => exact nil
  | cons c cs ih => exact (escapeChar c).append ih

end Sealed

/-- The text begins with a quote and ends with the next quote that is not escaped, with nothing between them that may
not stand there. -/
def Enclosed (literal : String) : Prop := ∃ inside, literal.toList = '"' :: (inside ++ ['"']) ∧ ¬ IsEscaped inside ∧
  ∀ before c after, inside = before ++ c :: after → MayStand before c after

theorem enclosed_stringLiteral (s : String) : Enclosed (stringLiteral s) := by
  obtain ⟨hend, hin⟩ := Sealed.escaped s.toList [] not_isEscaped_nil
  exact ⟨s.toList.flatMap escapeChar, by rw [stringLiteral, String.toList_ofList, List.cons_append], hend, hin⟩

/-- A string literal is sound, and denotes its string and no other one. -/
theorem stringLiteral_denotes :
    (∀ s, Enclosed (stringLiteral s) ∧ ∀ t : String, denoted? (stringLiteral s) = some (utf16 t.toList) ↔ t = s) ∧
      Function.Injective stringLiteral := by
  have hdenoted (s t : String) : denoted? (stringLiteral s) = some (utf16 t.toList) ↔ t = s := by
    rw [denoted?_stringLiteral, Option.some_inj, utf16_injective.eq_iff, String.toList_inj, eq_comm]
  refine ⟨fun s => ⟨enclosed_stringLiteral s, hdenoted s⟩, fun s t h => ?_⟩
  apply (hdenoted t s).mp
  rw [← h]
  exact denoted?_stringLiteral s

example : denoted? "\"\\\\u0041\\uu0041\"" = some (utf16 "\\u0041A".toList) := by cbv

end JavaLift.Source
