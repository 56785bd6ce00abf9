import JavaLift.Decimal.Shortest
import Mathlib
import JavaLift.Proofs.Source.Printing
import JavaLift.Source.Expr

namespace JavaLift

namespace Decimal

def AreDigits (digits : List Nat) : Prop := ∀ d ∈ digits, d < 10

namespace AreDigits

theorem text {digits : List Nat} (h : AreDigits digits) :
    ∀ c ∈ (FloatText.digitText digits).toList, c.isDigit = true := by
  intro c hc
  rw [FloatText.digitText, String.toList_ofList, List.mem_map] at hc
  obtain ⟨d, hd, rfl⟩ := hc
  rw [Nat.isDigit_digitChar]
  exact decide_eq_true (h d hd)

theorem append {ds es : List Nat} (h : AreDigits ds) (h' : AreDigits es) : AreDigits (ds ++ es) := by
  intro d hd
  exact (List.mem_append.mp hd).elim (h d) (h' d)

theorem zeros (n : Nat) : AreDigits (List.replicate n 0) := by
  intro d hd
  rw [List.eq_of_mem_replicate hd]
  decide

theorem take {digits : List Nat} (h : AreDigits digits) (n : Nat) : AreDigits (digits.take n) :=
  fun d hd => h d (List.mem_of_mem_take hd)

theorem drop {digits : List Nat} (h : AreDigits digits) (n : Nat) : AreDigits (digits.drop n) :=
  fun d hd => h d (List.mem_of_mem_drop hd)

end AreDigits

theorem digitText_ne_nil {digits : List Nat} (h : digits ≠ []) : (FloatText.digitText digits).toList ≠ [] := by
  rw [FloatText.digitText, String.toList_ofList]
  simpa using h

theorem significantDigits_areDigits (n : Nat) : AreDigits (significantDigits n) := by
  intro d hd
  rw [significantDigits, List.mem_reverse] at hd
  have hmem := (List.dropWhile_sublist _).mem hd
  rw [List.mem_reverse, List.mem_map] at hmem
  obtain ⟨c, hc, rfl⟩ := hmem
  have hdigit : c.isDigit = true := Nat.isDigit_of_mem_toDigits (by decide) le_rfl hc
  have hle : 48 ≤ c.toNat ∧ c.toNat ≤ 57 := by simpa [Char.isDigit, UInt32.le_iff_toNat_le] using hdigit
  have hzero : '0'.toNat = 48 := rfl
  omega

theorem exists_digit {n : Nat} (h : n ≠ 0) : ∃ c ∈ Nat.toDigits 10 n, c.toNat - '0'.toNat ≠ 0 := by
  induction n using Nat.strong_induction_on with
  | _ n ih =>
      by_cases hn : n < 10
      · refine ⟨n.digitChar, by simp [Nat.toDigits_of_lt_base hn], ?_⟩
        interval_cases n <;> first | exact absurd rfl h | decide
      · obtain ⟨c, hc, hne⟩ := ih (n / 10) (by omega) (by omega)
        refine ⟨c, ?_, hne⟩
        rw [Nat.toDigits_of_base_le (by decide) (by omega)]
        exact List.mem_append_left _ hc

theorem significantDigits_ne_nil {n : Nat} (h : n ≠ 0) : significantDigits n ≠ [] := by
  obtain ⟨c, hc, hne⟩ := exists_digit h
  rw [significantDigits, ne_eq, List.reverse_eq_nil_iff, List.dropWhile_eq_nil_iff]
  intro hall
  have hzero := hall (c.toNat - '0'.toNat) (List.mem_reverse.mpr (List.mem_map_of_mem hc))
  exact hne (by simpa using hzero)

theorem powerOfTen_pos (e : Int) : 0 < (powerOfTen e).2 := by
  unfold powerOfTen
  split_ifs <;> simp

theorem contains_pos {i : Interval} (hlow : 0 < i.low) {n den : Nat} (hden : 0 < den)
    (h : i.contains n den = true) : n ≠ 0 := by
  rintro rfl
  have hpos := Nat.mul_pos hlow hden
  unfold Interval.contains at h
  rw [Nat.zero_mul] at h
  split_ifs at h
  · simp only [Bool.and_eq_true, decide_eq_true_eq] at h
    omega
  · simp at h

theorem onGrid?_pos {i : Interval} (hlow : 0 < i.low) {point : Int} {count n : Nat}
    (h : onGrid? i point count = some n) : n ≠ 0 := by
  have hinside {m : Nat} (hm : i.contains (m * (powerOfTen (point - count)).1) (powerOfTen (point - count)).2 = true) :
      m ≠ 0 := left_ne_zero_of_mul (contains_pos hlow (powerOfTen_pos _) hm)
  unfold onGrid? at h
  dsimp only at h
  split at h
  · rename_i hbelow habove
    split_ifs at h <;> cases h
    · exact hinside hbelow
    · exact hinside habove
  · rename_i hbelow _
    cases h
    exact hinside hbelow
  · rename_i habove
    cases h
    exact hinside habove
  · cases h

theorem search_pos {i : Interval} (hlow : 0 < i.low) {point : Int} {tries count n count' : Nat}
    (h : search i point tries count = some (n, count')) : n ≠ 0 := by
  induction tries generalizing count with
  | zero => cases h
  | succ tries ih =>
      rw [search] at h
      split at h
      · rename_i m hm
        cases h
        exact onGrid?_pos hlow hm
      · exact ih h

theorem interval_pos (f : BinaryFormat) {m : Nat} (hm : 0 < m) (q : Int) : 0 < (Interval.of f m q).low := by
  have hunit : 0 < (BinaryFormat.scale 1 4 q).1 := by
    unfold BinaryFormat.scale
    split_ifs <;> simp
  unfold Interval.of
  dsimp only
  split_ifs <;> exact Nat.mul_pos (by omega) hunit

theorem decode_pos (f : BinaryFormat) {magnitude : Nat} (h : magnitude ≠ 0) : 0 < (f.decode magnitude).1 := by
  simp only [BinaryFormat.decode, Nat.one_shiftLeft, Nat.shiftRight_eq_div_pow]
  have hpow : 0 < 2 ^ f.fractionBits := by positivity
  split_ifs with hexponent
  · rw [Nat.div_eq_zero_iff] at hexponent
    rw [Nat.mod_eq_of_lt (by omega)]
    exact Nat.pos_of_ne_zero h
  · exact Nat.add_pos_right _ hpow

theorem shortest_areDigits (f : BinaryFormat) (magnitude : Nat) : AreDigits (shortest f magnitude).digits := by
  unfold shortest
  dsimp only
  split
  · exact significantDigits_areDigits _
  · rintro d ⟨⟩

/-- Where there are no digits to be found, the decimal point stands before them. -/
theorem shortest_ne_nil (f : BinaryFormat) {magnitude : Nat} (h : magnitude ≠ 0) :
    (shortest f magnitude).digits ≠ [] ∨ (shortest f magnitude).point = 0 := by
  have hlow := interval_pos f (decode_pos f h) (f.decode magnitude).2
  unfold shortest
  dsimp only
  split
  · rename_i n count hsearch
    exact .inl (significantDigits_ne_nil (search_pos hlow hsearch))
  · exact .inr rfl

end Decimal

namespace Source

def IsNumeral (s : String) : Prop :=
  ∃ whole fraction exponent mark, IsNumber whole fraction exponent mark ∧
    s.toList = whole ++ fraction ++ exponent ++ mark

namespace Prints

theorem word {s : String} (h : IsName s) (hs : isOperandWord s = true) : Prints s.toList 15 (.word s) := by
  refine ⟨⟨_, written_word hs, (spells_word h).mono fun c hc => hc.noNamePart⟩, ?_⟩
  obtain ⟨c, cs, hcs, hc, -⟩ := h
  exact ⟨c, cs, hcs, by simp [startsText, hc]⟩

theorem number {s : String} (h : IsNumeral s) : Prints s.toList 15 (.number s) := by
  obtain ⟨whole, fraction, exponent, mark, hnumber, hs⟩ := h
  have hspells := spells_number hnumber
  rw [← hs, String.ofList_toList] at hspells
  refine ⟨⟨_, written_number s, hspells.mono fun c hc => hc.noNumberPart rfl⟩, ?_⟩
  obtain ⟨d, ds, rfl⟩ := List.exists_cons_of_ne_nil hnumber.whole.1
  have hd := hnumber.whole.2 d List.mem_cons_self
  exact ⟨d, _, hs, by simp [startsText, hd]⟩

theorem char {cs : List Char} {unit : Nat} (h : Spells ('\'' :: cs) [.char unit] fun _ => True) :
    Prints ('\'' :: cs) 15 (.char unit) :=
  ⟨⟨_, written_char unit, h.mono fun _ _ => trivial⟩, _, _, rfl, rfl⟩

end Prints

/-- A character literal stands for its code unit, except for the two line ends: as escapes they would end the line. -/
def StandsAsChar (value : Int) : Prop := value = 0x27 ∨ value = 0x5c ∨ isPlainUnit (value % 0x10000).toNat = true

theorem prints_charLiteral {value : Int} (h : StandsAsChar value) :
    Prints (charLiteral value).toList 15 (.char (value % 0x10000).toNat) := by
  unfold charLiteral
  split_ifs with hquote hslash hprintable
  · rw [hquote]
    exact .char (spells_escape (by decide))
  · rw [hslash]
    exact .char (spells_escape (by decide))
  · obtain ⟨n, rfl⟩ : ∃ n : Nat, value = n := ⟨value.toNat, by omega⟩
    have hn : n < 127 ∧ 32 ≤ n := by omega
    have hchar : (Char.ofNat n).toNat = n := by rw [Char.toNat_ofNat, if_pos (.inl (by omega))]
    have hplain : isPlainUnit (Char.ofNat n).toNat = true := by
      rw [hchar]
      simp [isPlainUnit]
      omega
    have hall := Prints.char (spells_plain hplain)
    rw [hchar] at hall
    have hunit : ((n : Int) % 0x10000).toNat = n := by omega
    rw [hunit]
    simpa using hall
  · have hplain := (h.resolve_left hquote).resolve_left hslash
    have hunit : (value % 0x10000).toNat < 2 ^ 16 := by omega
    generalize (value % 0x10000).toNat = unit at hplain hunit
    simpa using Prints.char (spells_unit hunit hplain)

/-- A line end between quotes is no token. -/
theorem charLiteral_unreadable {value : Int} (h : ¬ StandsAsChar value) (ts : List Token) :
    ¬ Lexes (charLiteral value).toList ts := by
  obtain ⟨hquote, hslash, hplain⟩ : value ≠ 0x27 ∧ value ≠ 0x5c ∧ isPlainUnit (value % 0x10000).toNat = false := by
    simpa [StandsAsChar] using h
  have hrange : ¬ (0x20 ≤ value ∧ value < 0x7f) := by
    rintro hrange
    have hunit : (value % 0x10000).toNat = value.toNat := by omega
    rw [hunit] at hplain
    simp only [isPlainUnit, List.mem_cons, List.not_mem_nil, decide_eq_false_iff_not, not_not, or_false] at hplain
    omega
  have hunit : (value % 0x10000).toNat < 2 ^ 16 := by omega
  rw [charLiteral, if_neg hquote, if_neg hslash, if_neg hrange]
  generalize (value % 0x10000).toNat = unit at hplain hunit
  have htext : ("'" ++ unitEscape unit ++ "'").toList = '\'' :: ((unitEscape unit).toList ++ ['\'']) := by simp
  rw [htext]
  rintro (_ | _ | ⟨hnext, -⟩)
  rw [next?, if_neg (by decide), if_neg (by decide), if_pos rfl, character?_unit hunit, hplain] at hnext
  cases hnext

theorem digits_repr (n : Nat) : n.repr.toList ≠ [] ∧ IsDigits n.repr.toList := by
  rw [Nat.repr_eq_ofList_toDigits, String.toList_ofList]
  exact ⟨Nat.toDigits_ne_nil, fun c hc => Nat.isDigit_of_mem_toDigits (by decide) le_rfl hc⟩

theorem isNumeral_repr (n : Nat) {mark : String} (hmark : mark = "" ∨ mark = "L") : IsNumeral (n.repr ++ mark) := by
  refine ⟨n.repr.toList, [], [], mark.toList, ⟨digits_repr n, .inl rfl, .inl rfl, ?_⟩, ?_⟩
  · rcases hmark with rfl | rfl
    · exact .inl rfl
    · exact .inr ⟨'L', by simp, rfl⟩
  · simp

def integerTree (value : Int) (mark : String) : Tree :=
  let digits := .number (value.natAbs.repr ++ mark)
  if value < 0 then .unary "-" digits else digits

abbrev PrintsLiteral (s : String) (t : Tree) : Prop :=
  Prints s.toList (if s.toList.head? = some '-' then 13 else 15) t

theorem IsNumeral.head_ne {s : String} (h : IsNumeral s) : s.toList.head? ≠ some '-' := by
  obtain ⟨whole, fraction, exponent, mark, hnumber, hs⟩ := h
  obtain ⟨d, ds, rfl⟩ := List.exists_cons_of_ne_nil hnumber.whole.1
  have hd := hnumber.whole.2 d List.mem_cons_self
  rw [hs]
  rintro hhead
  cases hhead
  cases hd

theorem PrintsLiteral.of_ne {s : String} {t : Tree} (h : Prints s.toList 15 t) (hne : s.toList.head? ≠ some '-') :
    PrintsLiteral s t := by
  rwa [PrintsLiteral, if_neg hne]

theorem printsLiteral_number {s : String} (h : IsNumeral s) : PrintsLiteral s (.number s) :=
  .of_ne (.number h) h.head_ne

theorem printsLiteral_negative {s : String} (h : IsNumeral s) :
    PrintsLiteral ("-" ++ s) (.unary "-" (.number s)) := by
  have hhead : ("-" ++ s).toList = '-' :: s.toList := by rw [String.toList_append]; rfl
  rw [PrintsLiteral, hhead, List.head?_cons, if_pos rfl]
  exact (Prints.number h).unary (.inl rfl) (fun _ => h.head_ne) (by decide)

theorem printsLiteral_integer (value : Int) {mark : String} (hmark : mark = "" ∨ mark = "L") :
    PrintsLiteral (toString value ++ mark) (integerTree value mark) := by
  cases value with
  | ofNat n =>
      rw [integerTree, Int.ofNat_eq_natCast, if_neg (Int.not_lt.mpr (Int.natCast_nonneg n))]
      exact printsLiteral_number (isNumeral_repr n hmark)
  | negSucc n =>
      rw [integerTree, if_pos (Int.negSucc_lt_zero n)]
      have hall := printsLiteral_negative (isNumeral_repr (n + 1) hmark)
      rwa [← String.append_assoc] at hall

section
variable {d : Decimal} {mark : String}

theorem mark_letter (hmark : mark = "" ∨ mark = "f") :
    mark.toList = [] ∨ ∃ c ∈ ['f', 'F', 'd', 'D', 'l', 'L'], mark.toList = [c] := by
  rcases hmark with rfl | rfl
  · exact .inl rfl
  · exact .inr ⟨'f', by simp, rfl⟩

theorem isNumeral_positional (h : Decimal.AreDigits d.digits) (hmark : mark = "" ∨ mark = "f") :
    IsNumeral (FloatText.positional d ++ mark) := by
  have hmark' := mark_letter hmark
  unfold FloatText.positional
  dsimp only
  split_ifs with hpoint hlength
  · refine ⟨['0'], '.' :: (FloatText.digitText (List.replicate (-d.point).toNat 0 ++ d.digits)).toList, [], mark.toList,
      ⟨⟨by simp, by simp [IsDigits]⟩, .inr ⟨_, rfl, ?_⟩, .inl rfl, hmark'⟩, by simp⟩
    exact ((Decimal.AreDigits.zeros _).append h).text
  · refine ⟨(FloatText.digitText (d.digits ++ List.replicate (d.point.toNat - d.digits.length) 0)).toList, ['.', '0'],
      [], mark.toList,
      ⟨⟨Decimal.digitText_ne_nil ?_, ?_⟩, .inr ⟨['0'], rfl, by simp [IsDigits]⟩, .inl rfl, hmark'⟩, by simp⟩
    · rw [← List.length_pos_iff, List.length_append, List.length_replicate]
      omega
    · exact (h.append (.zeros _)).text
  · refine ⟨(FloatText.digitText (d.digits.take d.point.toNat)).toList,
      '.' :: (FloatText.digitText (d.digits.drop d.point.toNat)).toList, [], mark.toList,
      ⟨⟨Decimal.digitText_ne_nil ?_, ?_⟩, .inr ⟨_, rfl, ?_⟩, .inl rfl, hmark'⟩, by simp⟩
    · rw [← List.length_pos_iff, List.length_take]
      omega
    · exact (h.take _).text
    · exact (h.drop _).text

theorem toString_digits (e : Int) : ∃ sign ds, (toString e).toList = sign ++ ds ∧ (sign = [] ∨ sign = ['-']) ∧
    ds ≠ [] ∧ IsDigits ds := by
  cases e with
  | ofNat n => exact ⟨[], _, rfl, .inl rfl, digits_repr n⟩
  | negSucc n => exact ⟨['-'], _, String.toList_append, .inr rfl, digits_repr (n + 1)⟩

theorem isNumeral_scientific (h : Decimal.AreDigits d.digits) (hne : d.digits ≠ []) (hmark : mark = "" ∨ mark = "f") :
    IsNumeral (FloatText.scientific d ++ mark) := by
  obtain ⟨sign, ds, hexponent, hsign, hdigits⟩ := toString_digits (d.point - 1)
  have hone : (FloatText.digitText (d.digits.take 1)).toList ≠ [] ∧
      IsDigits (FloatText.digitText (d.digits.take 1)).toList := by
    refine ⟨Decimal.digitText_ne_nil ?_, (h.take _).text⟩
    obtain ⟨e, es, hes⟩ := List.exists_cons_of_ne_nil hne
    simp [hes]
  have htext : (FloatText.scientific d ++ mark).toList = (FloatText.digitText (d.digits.take 1)).toList ++
      (if d.digits.length ≤ 1 then "" else "." ++ FloatText.digitText (d.digits.drop 1)).toList ++
      'e' :: (sign ++ ds) ++ mark.toList := by
    rw [← hexponent]
    simp [FloatText.scientific]
  refine ⟨_, _, _, _, ⟨hone, ?_, .inr ⟨sign, ds, rfl, hsign, hdigits⟩, mark_letter hmark⟩, htext⟩
  split_ifs
  · exact .inl rfl
  · exact .inr ⟨_, String.toList_append, (h.drop _).text⟩

end

theorem magnitude_unsigned (f : BinaryFormat) (bits : Nat) :
    f.magnitude (f.magnitude bits) = f.magnitude bits ∧ f.isNegative (f.magnitude bits) = false := by
  have hlt : bits % 2 ^ (f.fractionBits + f.exponentBits) < 2 ^ (f.fractionBits + f.exponentBits) :=
    Nat.mod_lt _ (by positivity)
  simp only [BinaryFormat.magnitude, BinaryFormat.isNegative, Nat.one_shiftLeft]
  exact ⟨Nat.mod_mod _ _, Nat.testBit_lt_two_pow hlt⟩

theorem render_sign (t : FloatText) (f : BinaryFormat) (bits : Nat) :
    t.render f bits = (if f.isNegative bits then "-" else "") ++ t.render f (f.magnitude bits) := by
  simp [FloatText.render, magnitude_unsigned f bits]

theorem isNumeral_render (f : BinaryFormat) (bits : Nat) {mark : String} (hmark : mark = "" ∨ mark = "f") :
    IsNumeral (FloatText.plain.render f (f.magnitude bits) ++ mark) := by
  obtain ⟨hmagnitude, hsign⟩ := magnitude_unsigned f bits
  have hdigits := Decimal.shortest_areDigits f (f.magnitude bits)
  rw [FloatText.render, hmagnitude, hsign, if_neg (by decide), String.empty_append]
  split_ifs with hzero hrange
  · exact ⟨['0'], ['.', '0'], [], mark.toList,
      ⟨⟨by simp, by simp [IsDigits]⟩, .inr ⟨['0'], rfl, by simp [IsDigits]⟩, .inl rfl, mark_letter hmark⟩,
      String.toList_append⟩
  · exact isNumeral_positional hdigits hmark
  · refine isNumeral_scientific hdigits ?_ hmark
    refine (Decimal.shortest_ne_nil f hzero).resolve_right fun hpoint => hrange ?_
    rw [hpoint]
    decide

def floatTree (f : BinaryFormat) (owner mark : String) (bits : Nat) : Tree :=
  if f.isNaN bits then .field (.word owner) "NaN"
  else if f.isInfinite bits then
    .field (.word owner) ((if f.isNegative bits then "NEGATIVE" else "POSITIVE") ++ "_INFINITY")
  else
    let digits := .number (FloatText.plain.render f (f.magnitude bits) ++ mark)
    if f.isNegative bits then .unary "-" digits else digits

theorem printsLiteral_word {s : String} (h : IsName s) (hs : isOperandWord s = true) : PrintsLiteral s (.word s) := by
  refine .of_ne (.word h hs) ?_
  obtain ⟨c, cs, hcs, hc, -⟩ := h
  rw [hcs]
  rintro hhead
  cases hhead
  cases hc

theorem printsLiteral_field {owner name : String} (howner : IsName owner) (howner' : isOperandWord owner = true)
    (hname : IsName name) (hname' : keywords.contains name = false) :
    PrintsLiteral (owner ++ "." ++ name) (.field (.word owner) name) := by
  have hall := (Prints.word howner howner').field rfl hname hname'
  have htext : (owner ++ "." ++ name).toList = owner.toList ++ '.' :: name.toList := by simp
  refine .of_ne (htext ▸ hall) ?_
  obtain ⟨c, cs, hcs, hc, -⟩ := howner
  rw [htext, hcs]
  rintro hhead
  cases hhead
  cases hc

theorem printsLiteral_float (f : BinaryFormat) {owner mark : String} (howner : owner = "Float" ∨ owner = "Double")
    (hmark : mark = "" ∨ mark = "f") (bits : Nat) :
    PrintsLiteral (floatLiteral f owner mark bits) (floatTree f owner mark bits) := by
  have hname : IsName owner ∧ isOperandWord owner = true := by
    rcases howner with rfl | rfl
    · exact ⟨isName_of_all rfl, rfl⟩
    · exact ⟨isName_of_all rfl, rfl⟩
  have hconstant {n : String} (h : IsName n) (h' : keywords.contains n = false) :=
    printsLiteral_field hname.1 hname.2 h h'
  unfold floatLiteral floatTree
  split_ifs with hnan hinfinite hnegative hnegative
  · have hall := hconstant (n := "NaN") (isName_of_all rfl) rfl
    rwa [String.append_assoc] at hall
  · have hall := hconstant (n := "NEGATIVE_INFINITY") (isName_of_all rfl) rfl
    rw [String.append_assoc] at hall ⊢
    exact hall
  · have hall := hconstant (n := "POSITIVE_INFINITY") (isName_of_all rfl) rfl
    rw [String.append_assoc] at hall ⊢
    exact hall
  · rw [render_sign, if_pos hnegative, String.append_assoc]
    exact printsLiteral_negative (isNumeral_render f bits hmark)
  · rw [render_sign, if_neg hnegative, String.empty_append]
    exact printsLiteral_number (isNumeral_render f bits hmark)

def literalTree (value : Int) (type : Ty) : Tree :=
  match type.resolved with
  | .boolean => .word (if value = 0 then "false" else "true")
  | .char => .char (value % 0x10000).toNat
  | .long => integerTree value "L"
  | .float => floatTree .single "Float" "f" (value % 0x100000000).toNat
  | .double => floatTree .double "Double" "" (value % 0x10000000000000000).toNat
  | .int => integerTree (signed 32 (value % 0x100000000).toNat) ""
  | .object _ | .array _ => if value = 0 then .word "null" else integerTree value ""
  | _ => integerTree value ""

theorem printsLiteral_literal (value : Int) (type : Ty) (h : type.resolved = .char → StandsAsChar value) :
    PrintsLiteral (literal value type) (literalTree value type) := by
  have hinteger (value : Int) : PrintsLiteral (toString value) (integerTree value "") := by
    have hall := printsLiteral_integer value (.inl rfl)
    rwa [String.append_empty] at hall
  unfold literal literalTree
  cases hresolved : type.resolved with
  | boolean =>
      dsimp only
      split_ifs
      · exact printsLiteral_word (isName_of_all rfl) rfl
      · exact printsLiteral_word (isName_of_all rfl) rfl
  | char =>
      have hhead : (charLiteral value).toList.head? = some '\'' := by
        unfold charLiteral
        split_ifs <;> simp
      refine .of_ne (prints_charLiteral (h hresolved)) ?_
      rw [hhead]
      decide
  | long => exact printsLiteral_integer value (.inr rfl)
  | float => exact printsLiteral_float .single (.inl rfl) (.inr rfl) _
  | double => exact printsLiteral_float .double (.inr rfl) (.inl rfl) _
  | int => exact hinteger _
  | object | array =>
      dsimp only
      split_ifs
      · exact printsLiteral_word (isName_of_all rfl) rfl
      · exact hinteger value
  | _ => exact hinteger value

theorem prints_literalExpr (value : Int) (type : Ty) (h : type.resolved = .char → StandsAsChar value) :
    Prints (literal value type).toList (literalExpr value type).prec (literalTree value type) :=
  printsLiteral_literal value type h

end Source

end JavaLift
