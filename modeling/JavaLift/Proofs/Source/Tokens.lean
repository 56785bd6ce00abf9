import JavaLift.Source.Literal
import Mathlib

namespace JavaLift.Source

inductive Token where
  | word (s : String)
  | number (s : String)
  | char (unit : Nat)
  | op (s : String)
  | lparen | rparen | lbracket | rbracket | lbrace | rbrace | dot | comma | question | colon
deriving DecidableEq

/-- The signs that are tokens, or begin a comment, the long ones first. -/
def signs : List (String × Token) := [
  (">>>=", .op ">>>="), ("<<=", .op "<<="), (">>=", .op ">>="), (">>>", .op ">>>"), ("...", .op "..."),
  ("->", .op "->"), ("++", .op "++"), ("--", .op "--"), ("&&", .op "&&"), ("||", .op "||"), ("==", .op "=="),
  ("!=", .op "!="), ("<=", .op "<="), (">=", .op ">="), ("+=", .op "+="), ("-=", .op "-="), ("*=", .op "*="),
  ("/=", .op "/="), ("&=", .op "&="), ("|=", .op "|="), ("^=", .op "^="), ("%=", .op "%="), ("<<", .op "<<"),
  (">>", .op ">>"), ("::", .op "::"), ("//", .op "//"), ("/*", .op "/*"), ("=", .op "="), ("<", .op "<"),
  (">", .op ">"), ("!", .op "!"), ("~", .op "~"), ("+", .op "+"), ("-", .op "-"), ("*", .op "*"), ("/", .op "/"),
  ("&", .op "&"), ("|", .op "|"), ("^", .op "^"), ("%", .op "%"), (";", .op ";"), ("@", .op "@"), ("(", .lparen),
  (")", .rparen), ("[", .lbracket), ("]", .rbracket), ("\x7b", .lbrace), ("\x7d", .rbrace), (".", .dot), (",", .comma),
  ("?", .question), (":", .colon)]

/-- A name begins with a letter. All characters beyond ASCII count as letters. -/
def isNameStart (c : Char) : Bool := c.isAlpha || c == '_' || c == '$' || 128 ≤ c.toNat

def isNamePart (c : Char) : Bool := isNameStart c || c.isDigit

def scanFraction : List Char → List Char × List Char
  | c :: cs => if c = '.' then (c :: cs.takeWhile Char.isDigit, cs.dropWhile Char.isDigit) else ([], c :: cs)
  | [] => ([], [])

def scanExponent : List Char → List Char × List Char
  | e :: sign :: cs =>
    if e ≠ 'e' ∧ e ≠ 'E' then ([], e :: sign :: cs)
    else
      let (before, cs') := if sign = '+' ∨ sign = '-' then ([e, sign], cs) else ([e], sign :: cs)
      match cs'.takeWhile Char.isDigit with
      | [] => ([], e :: sign :: cs)
      | digits => (before ++ digits, cs'.dropWhile Char.isDigit)
  | cs => ([], cs)

def scanMark : List Char → List Char × List Char
  | c :: cs => if c ∈ ['f', 'F', 'd', 'D', 'l', 'L'] then ([c], cs) else ([], c :: cs)
  | [] => ([], [])

def scanNumber (cs : List Char) : List Char × List Char :=
  let (fraction, rest) := scanFraction (cs.dropWhile Char.isDigit)
  let (exponent, rest) := scanExponent rest
  let (mark, rest) := scanMark rest
  (cs.takeWhile Char.isDigit ++ fraction ++ exponent ++ mark, rest)

def hexValue? (c : Char) : Option Nat :=
  if '0' ≤ c ∧ c ≤ '9' then some (c.toNat - '0'.toNat)
  else if 'a' ≤ c ∧ c ≤ 'f' then some (c.toNat - 'a'.toNat + 10)
  else if 'A' ≤ c ∧ c ≤ 'F' then some (c.toNat - 'A'.toNat + 10)
  else none

def escapes : List (Char × Nat) :=
  [('b', 8), ('t', 9), ('n', 10), ('f', 12), ('r', 13), ('s', 32), ('"', 34), ('\'', 39), ('\\', 92)]

/-- The characters that do not stand for themselves between quotes. An escape of a code unit is replaced by that unit
before the text is read, so it is as good or as bad as that: line ends, quotes and backslashes. -/
def isPlainUnit (n : Nat) : Bool := n ∉ [10, 13, 39, 92]

def character? : List Char → Option (Nat × List Char)
  | '\\' :: 'u' :: a :: b :: c :: d :: '\'' :: rest => do
    let unit := 4096 * (← hexValue? a) + 256 * (← hexValue? b) + 16 * (← hexValue? c) + (← hexValue? d)
    if isPlainUnit unit then some (unit, rest) else none
  | '\\' :: c :: '\'' :: rest => (escapes.lookup c).map (·, rest)
  | c :: '\'' :: rest => if isPlainUnit c.toNat then some (c.toNat, rest) else none
  | _ => none

def next? : List Char → Option (Token × List Char)
  | [] => none
  | c :: cs =>
    if isNameStart c then some (.word (String.ofList (c :: cs.takeWhile isNamePart)), cs.dropWhile isNamePart)
    else if c.isDigit then some (.number (String.ofList (scanNumber (c :: cs)).1), (scanNumber (c :: cs)).2)
    else if c = '\'' then (character? cs).map fun (unit, rest) => (.char unit, rest)
    else (signs.find? fun s => s.1.toList.isPrefixOf (c :: cs)).map fun s => (s.2, (c :: cs).drop s.1.length)

inductive Lexes : List Char → List Token → Prop
  | nil : Lexes [] []
  | blank {cs : List Char} {ts : List Token} : Lexes cs ts → Lexes (' ' :: cs) ts
  | token {cs rest : List Char} {t : Token} {ts : List Token} :
    next? cs = some (t, rest) → Lexes rest ts → Lexes cs (t :: ts)

theorem next?_blank (cs : List Char) : next? (' ' :: cs) = none := by
  simp [next?, isNameStart, signs]

theorem Lexes.functional {cs : List Char} {ts us : List Token} (h : Lexes cs ts) (h' : Lexes cs us) : us = ts := by
  induction h generalizing us with
  | nil =>
      cases h' with
      | nil => rfl
      | token hnext _ => cases hnext
  | blank _ ih =>
      cases h' with
      | blank h' => exact ih h'
      | token hnext _ => exact absurd hnext (by simp [next?_blank])
  | token hnext _ ih =>
      cases h' with
      | nil => cases hnext
      | blank _ => exact absurd hnext (by simp [next?_blank])
      | token hnext' h' =>
          rw [hnext, Option.some.injEq, Prod.mk.injEq] at hnext'
          obtain ⟨rfl, rfl⟩ := hnext'
          rw [ih h']

/-- A text is read as the tokens wherever what follows begins as it may. -/
def Spells (cs : List Char) (ts : List Token) (follows : Option Char → Prop) : Prop :=
  ∀ rest us, follows rest.head? → Lexes rest us → Lexes (cs ++ rest) (ts ++ us)

namespace Spells

variable {cs ds : List Char} {ts us : List Token} {p q : Option Char → Prop}

theorem nil : Spells [] [] p := fun _ _ _ h => h

theorem blank : Spells [' '] [] p := fun _ _ _ h => .blank h

theorem mono (h : Spells cs ts p) (hq : ∀ c, q c → p c) : Spells cs ts q := fun rest us hrest => h rest us (hq _ hrest)

theorem append (h : Spells cs ts p) (h' : Spells ds us q) (hp : ∀ c, q c → p (ds.head?.or c)) :
    Spells (cs ++ ds) (ts ++ us) q := by
  intro rest vs hrest hlexes
  rw [List.append_assoc, List.append_assoc]
  refine h _ _ ?_ (h' rest vs hrest hlexes)
  have hhead : (ds ++ rest).head? = ds.head?.or rest.head? := by cases ds <;> rfl
  rw [hhead]
  exact hp _ hrest

theorem lexes (h : Spells cs ts p) (hp : p none) : Lexes cs ts := by
  have hall := h [] [] hp .nil
  rwa [List.append_nil, List.append_nil] at hall

end Spells

def NoNamePart (c : Option Char) : Prop := ∀ d, c = some d → isNamePart d = false

theorem takeWhile_append {p : Char → Bool} {cs rest : List Char} (hcs : ∀ c ∈ cs, p c = true)
    (hrest : ∀ c, rest.head? = some c → p c = false) :
    (cs ++ rest).takeWhile p = cs ∧ (cs ++ rest).dropWhile p = rest := by
  have hnone : rest.takeWhile p = [] ∧ rest.dropWhile p = rest := by
    cases rest with
    | nil => exact ⟨rfl, rfl⟩
    | cons c rest => simp [hrest c rfl]
  rw [List.takeWhile_append_of_pos hcs, List.dropWhile_append_of_pos hcs, hnone.1, hnone.2, List.append_nil]
  exact ⟨rfl, rfl⟩

def IsName (s : String) : Prop := ∃ c cs, s.toList = c :: cs ∧ isNameStart c = true ∧ ∀ d ∈ cs, isNamePart d = true

theorem isName_of_all {s : String} (h : (s.toList.head?.any isNameStart && s.toList.all isNamePart) = true) :
    IsName s := by
  rw [Bool.and_eq_true, List.all_eq_true] at h
  cases hs : s.toList with
  | nil => simp [hs] at h
  | cons c cs =>
      rw [hs] at h
      exact ⟨c, cs, hs, h.1, fun d hd => h.2 d (List.mem_cons_of_mem _ hd)⟩

theorem spells_word {s : String} (h : IsName s) : Spells s.toList [.word s] NoNamePart := by
  intro rest us hrest hlexes
  obtain ⟨c, cs, hs, hc, hcs⟩ := h
  obtain ⟨htake, hdrop⟩ := takeWhile_append hcs hrest
  refine .token ?_ hlexes
  rw [hs, List.cons_append, next?, if_pos hc, htake, hdrop, ← hs, String.ofList_toList]

def IsDigits (cs : List Char) : Prop := ∀ c ∈ cs, c.isDigit = true

def NoNumberPart (c : Option Char) : Prop := ∀ d, c = some d → isNamePart d = false ∧ d ≠ '.'

structure IsNumber (whole fraction exponent mark : List Char) : Prop where
  whole : whole ≠ [] ∧ IsDigits whole
  fraction : fraction = [] ∨ ∃ ds, fraction = '.' :: ds ∧ IsDigits ds
  exponent : exponent = [] ∨
    ∃ sign ds, exponent = 'e' :: (sign ++ ds) ∧ (sign = [] ∨ sign = ['-']) ∧ ds ≠ [] ∧ IsDigits ds
  mark : mark = [] ∨ ∃ c ∈ ['f', 'F', 'd', 'D', 'l', 'L'], mark = [c]

theorem not_nameStart {c : Char} (h : c.isDigit = true) : isNameStart c = false := by
  have hle : 48 ≤ c.toNat ∧ c.toNat ≤ 57 := by simpa [Char.isDigit, UInt32.le_iff_toNat_le] using h
  have hne : c ≠ '_' ∧ c ≠ '$' := by constructor <;> rintro rfl <;> exact absurd hle (by decide)
  have halpha : c.isAlpha = false := by
    simp only [Char.isAlpha, Char.isUpper, Char.isLower, UInt32.le_iff_toNat_le, ge_iff_le, Bool.or_eq_false_iff,
      Bool.and_eq_false_iff, decide_eq_false_iff_not]
    have : c.toNat = c.val.toNat := rfl
    simp
    omega
  simp [isNameStart, halpha, hne]
  omega

theorem not_digit {c : Char} (h : isNamePart c = false) : c.isDigit = false := by
  rw [isNamePart, Bool.or_eq_false_iff] at h
  exact h.2

theorem ne_of_not_part {c d : Char} (h : isNamePart c = false) (hd : isNamePart d = true) : c ≠ d := by
  rintro rfl
  rw [hd] at h
  cases h

section
variable {whole fraction exponent mark rest : List Char}

theorem scanMark_append (h : IsNumber whole fraction exponent mark) (hrest : NoNumberPart rest.head?) :
    scanMark (mark ++ rest) = (mark, rest) := by
  rcases h.mark with rfl | ⟨c, hc, rfl⟩
  · cases rest with
    | nil => rfl
    | cons c rest =>
        have hpart := (hrest c rfl).1
        refine if_neg fun hmem => ?_
        simp only [List.mem_cons, List.not_mem_nil, or_false] at hmem
        rcases hmem with rfl | rfl | rfl | rfl | rfl | rfl <;> cases hpart
  · exact if_pos hc

/-- What follows the digits of a number is not one of them. -/
theorem head_mark (h : IsNumber whole fraction exponent mark) (hrest : NoNumberPart rest.head?) {c : Char}
    (hc : (mark ++ rest).head? = some c) : c.isDigit = false ∧ c ≠ '.' ∧ c ≠ 'e' ∧ c ≠ 'E' := by
  rcases h.mark with rfl | ⟨d, hd, rfl⟩
  · obtain ⟨hpart, hdot⟩ := hrest c hc
    exact ⟨not_digit hpart, hdot, ne_of_not_part hpart rfl, ne_of_not_part hpart rfl⟩
  · cases hc
    simp only [List.mem_cons, List.not_mem_nil, or_false] at hd
    rcases hd with rfl | rfl | rfl | rfl | rfl | rfl <;> decide

theorem scanExponent_append (h : IsNumber whole fraction exponent mark) (hrest : NoNumberPart rest.head?) :
    scanExponent (exponent ++ (mark ++ rest)) = (exponent, mark ++ rest) := by
  have hhead := fun c => head_mark h hrest (c := c)
  generalize mark ++ rest = cs at hhead
  rcases h.exponent with rfl | ⟨sign, ds, rfl, hsign, hne, hdigits⟩
  · match cs, hhead with
    | [], _ | [_], _ => rfl
    | e :: f :: cs, hhead => exact if_pos ⟨(hhead e rfl).2.2.1, (hhead e rfl).2.2.2⟩
  · obtain ⟨d, ds, rfl⟩ := List.exists_cons_of_ne_nil hne
    have hd := hdigits d List.mem_cons_self
    obtain ⟨htake, hdrop⟩ := takeWhile_append hdigits fun c hc => (hhead c hc).1
    rcases hsign with rfl | rfl
    · have hsign : ¬ (d = '+' ∨ d = '-') := by rintro (rfl | rfl) <;> cases hd
      simp only [List.nil_append, List.cons_append] at htake hdrop ⊢
      rw [scanExponent, if_neg (by simp)]
      simp [hsign, htake, hdrop]
    · simp only [List.cons_append, List.nil_append] at htake hdrop ⊢
      rw [scanExponent, if_neg (by simp)]
      simp [htake, hdrop]

theorem head_exponent (h : IsNumber whole fraction exponent mark) (hrest : NoNumberPart rest.head?) {c : Char}
    (hc : (exponent ++ (mark ++ rest)).head? = some c) : c.isDigit = false ∧ c ≠ '.' := by
  rcases h.exponent with rfl | ⟨sign, ds, rfl, -⟩
  · have hall := head_mark h hrest hc
    exact ⟨hall.1, hall.2.1⟩
  · cases hc
    decide

theorem scanFraction_append (h : IsNumber whole fraction exponent mark) (hrest : NoNumberPart rest.head?) :
    scanFraction (fraction ++ (exponent ++ (mark ++ rest))) = (fraction, exponent ++ (mark ++ rest)) := by
  have hhead := fun c => head_exponent h hrest (c := c)
  generalize exponent ++ (mark ++ rest) = cs at hhead
  rcases h.fraction with rfl | ⟨ds, rfl, hdigits⟩
  · cases cs with
    | nil => rfl
    | cons c cs => exact if_neg (hhead c rfl).2
  · obtain ⟨htake, hdrop⟩ := takeWhile_append hdigits fun c hc => (hhead c hc).1
    rw [List.cons_append, scanFraction, if_pos rfl, htake, hdrop]

theorem head_fraction (h : IsNumber whole fraction exponent mark) (hrest : NoNumberPart rest.head?) {c : Char}
    (hc : (fraction ++ (exponent ++ (mark ++ rest))).head? = some c) : c.isDigit = false := by
  rcases h.fraction with rfl | ⟨ds, rfl, -⟩
  · exact (head_exponent h hrest hc).1
  · cases hc
    rfl

theorem scanNumber_append (h : IsNumber whole fraction exponent mark) (hrest : NoNumberPart rest.head?) :
    scanNumber (whole ++ (fraction ++ (exponent ++ (mark ++ rest)))) =
      (whole ++ fraction ++ exponent ++ mark, rest) := by
  obtain ⟨htake, hdrop⟩ := takeWhile_append h.whole.2 fun c hc => head_fraction h hrest hc
  simp only [scanNumber, htake, hdrop, scanFraction_append h hrest, scanExponent_append h hrest,
    scanMark_append h hrest]

theorem spells_number (h : IsNumber whole fraction exponent mark) :
    Spells (whole ++ fraction ++ exponent ++ mark) [.number (String.ofList (whole ++ fraction ++ exponent ++ mark))]
      NoNumberPart := by
  intro rest us hrest hlexes
  refine .token ?_ hlexes
  obtain ⟨d, ds, hwhole⟩ := List.exists_cons_of_ne_nil h.whole.1
  have hd : d.isDigit = true := h.whole.2 d (hwhole ▸ List.mem_cons_self)
  have hstart : ¬ isNameStart d = true := by simp [not_nameStart hd]
  have hscan := scanNumber_append h hrest
  simp only [List.append_assoc] at hscan ⊢
  rw [hwhole, List.cons_append] at hscan ⊢
  rw [next?, if_neg hstart, if_pos hd, hscan]

end

/-- The characters with which a sign would go on as a longer one. -/
def continuations (s : String) : List Char :=
  signs.filterMap fun x => if s.toList.isPrefixOf x.1.toList then x.1.toList[s.length]? else none

theorem signs_ordered : signs.Pairwise fun x y => ¬ x.1.toList <+: y.1.toList := by decide +kernel

theorem signs_start : ∀ x ∈ signs, ∃ c cs, x.1.toList = c :: cs ∧
    isNameStart c = false ∧ c.isDigit = false ∧ c ≠ '\'' := by
  have hall : ∀ x ∈ signs, x.1.toList.head?.any (fun c => !isNameStart c && !c.isDigit && c != '\'') = true := by
    decide +kernel
  intro x hx
  have hx := hall x hx
  cases hcs : x.1.toList with
  | nil => simp [hcs] at hx
  | cons c cs => exact ⟨c, cs, rfl, by simpa [hcs, and_assoc] using hx⟩

/-- No longer sign begins where the text does not go on with one of its characters. -/
theorem not_longer {s : String} {rest : List Char} {x : String × Token} (hx : x ∈ signs)
    (hrest : ∀ d ∈ continuations s, rest.head? ≠ some d) (hnot : ¬ x.1.toList <+: s.toList) :
    ¬ x.1.toList <+: s.toList ++ rest := by
  intro hprefix
  obtain hle | ⟨ds, hlonger⟩ := List.prefix_or_prefix_of_prefix hprefix (List.prefix_append _ _)
  · exact hnot hle
  cases ds with
  | nil => exact hnot (by rw [← hlonger, List.append_nil])
  | cons d ds =>
      have hd : d ∈ continuations s := by
        refine List.mem_filterMap.mpr ⟨x, hx, ?_⟩
        rw [← hlonger, if_pos (by simp), ← String.length_toList]
        simp
      rw [← hlonger, List.prefix_append_right_inj] at hprefix
      obtain ⟨es, rfl⟩ := hprefix
      exact hrest d hd rfl

theorem spells_sign {s : String} {t : Token} (h : (s, t) ∈ signs) :
    Spells s.toList [t] fun c => ∀ d ∈ continuations s, c ≠ some d := by
  intro rest us hrest hlexes
  obtain ⟨before, after, hsplit⟩ := List.append_of_mem h
  have hordered := signs_ordered
  rw [hsplit, List.pairwise_append] at hordered
  have hfind : signs.find? (fun x => x.1.toList.isPrefixOf (s.toList ++ rest)) = some (s, t) := by
    refine List.find?_eq_some_iff_append.mpr ⟨by simp, before, after, hsplit, fun x hx => ?_⟩
    have hnot := not_longer (hsplit ▸ List.mem_append_left _ hx) hrest (hordered.2.2 x hx _ List.mem_cons_self)
    rwa [Bool.not_eq_true', ← Bool.not_eq_true, List.isPrefixOf_iff_prefix]
  obtain ⟨c, cs, hcs, hname, hdigit, hquote⟩ := signs_start (s, t) h
  refine .token ?_ hlexes
  have hdrop : (s.toList ++ rest).drop s.length = rest := by rw [← String.length_toList, List.drop_left]
  rw [hcs, List.cons_append] at hfind hdrop ⊢
  rw [next?, if_neg (by simp [hname]), if_neg (by simp [hdigit]), if_neg hquote, hfind, Option.map_some, hdrop]

theorem spells_character {cs : List Char} {unit : Nat}
    (h : ∀ rest, character? (cs ++ rest) = some (unit, rest)) :
    Spells ('\'' :: cs) [.char unit] fun _ => True := by
  intro rest us _ hlexes
  refine .token ?_ hlexes
  rw [List.cons_append, next?, if_neg (by decide), if_neg (by decide), if_pos rfl, h]
  rfl

theorem spells_plain {c : Char} (h : isPlainUnit c.toNat = true) :
    Spells ['\'', c, '\''] [.char c.toNat] fun _ => True := by
  refine spells_character fun rest => ?_
  have hne : c ≠ '\\' := by rintro rfl; cases h
  simp [character?, hne, h]

theorem spells_escape {c : Char} {unit : Nat} (h : escapes.lookup c = some unit) :
    Spells ['\'', '\\', c, '\''] [.char unit] fun _ => True := by
  refine spells_character fun rest => ?_
  have hne : c ≠ 'u' := by rintro rfl; cases h
  simp [character?, hne, h]

theorem hexValue?_digitChar : ∀ n < 16, hexValue? n.digitChar = some n := by decide

theorem hex_four {n : Nat} (h : n < 2 ^ 16) : (Text.hex 4 n).toList =
    [(n / 4096).digitChar, (n / 256 % 16).digitChar, (n / 16 % 16).digitChar, (n % 16).digitChar] := by
  have hstep {m : Nat} (hm : 16 ≤ m) := Nat.toDigits_of_base_le (b := 16) (by decide) hm
  have hlast {m : Nat} (hm : m < 16) := Nat.toDigits_of_lt_base hm
  have hzero {m : Nat} (hm : m = 0) : m.digitChar = '0' := by rw [hm]; rfl
  rw [Text.hex, String.toList_ofList]
  by_cases h₁ : n < 16
  · rw [hlast h₁, hzero (m := n / 4096) (by omega), hzero (m := n / 256 % 16) (by omega),
      hzero (m := n / 16 % 16) (by omega), Nat.mod_eq_of_lt h₁]
    rfl
  rw [hstep (by omega)]
  by_cases h₂ : n < 256
  · rw [hlast (by omega), hzero (m := n / 4096) (by omega), hzero (m := n / 256 % 16) (by omega),
      Nat.mod_eq_of_lt (a := n / 16) (by omega)]
    rfl
  rw [hstep (by omega), Nat.div_div_eq_div_mul]
  by_cases h₃ : n < 4096
  · rw [hlast (by omega), hzero (m := n / 4096) (by omega), Nat.mod_eq_of_lt (a := n / 256) (by omega)]
    rfl
  rw [hstep (by omega), hlast (by omega), Nat.div_div_eq_div_mul]
  rfl

theorem character?_unit {n : Nat} (hn : n < 2 ^ 16) (rest : List Char) :
    character? ((unitEscape n).toList ++ '\'' :: rest) = if isPlainUnit n then some (n, rest) else none := by
  have hunit : 4096 * (n / 4096) + 256 * (n / 256 % 16) + 16 * (n / 16 % 16) + n % 16 = n := by omega
  have hvalue {m : Nat} (hm : m < 16) := hexValue?_digitChar m hm
  simp only [unitEscape, String.toList_append, hex_four hn]
  simp only [List.cons_append, List.nil_append, character?, String.reduceToList]
  rw [hvalue (m := n / 4096) (by omega), hvalue (m := n / 256 % 16) (by omega), hvalue (m := n / 16 % 16) (by omega),
    hvalue (m := n % 16) (by omega)]
  simp [hunit]

theorem spells_unit {n : Nat} (hn : n < 2 ^ 16) (h : isPlainUnit n = true) :
    Spells ('\'' :: ((unitEscape n).toList ++ ['\''])) [.char n] fun _ => True := by
  refine spells_character fun rest => ?_
  rw [List.append_assoc, List.singleton_append, character?_unit hn, if_pos h]

end JavaLift.Source
