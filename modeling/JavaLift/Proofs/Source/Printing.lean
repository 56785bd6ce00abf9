import JavaLift.Proofs.Source.Levels

namespace JavaLift.Source

def Tree.isNumber : Tree → Bool
  | .number _ => true
  | _ => false

/-- What may follow the text of a tree. A point follows primary expressions only, and would go on with a number. -/
def Stops (prec : Nat) (t : Tree) (c : Option Char) : Prop :=
  ∀ d, c = some d → d ∈ [' ', '(', ')', '[', ']', ',', '}'] ∨ d = '.' ∧ prec = 15 ∧ t.isNumber = false

/-- The character may come first in the text of an expression. No primary expression begins with an operator. -/
def startsText (prec : Nat) (c : Char) : Bool :=
  isNameStart c || c.isDigit || ['\'', '('].contains c || (prec != 15 && ['-', '!', '~'].contains c)

theorem startsText_mono {p k : Nat} (hk : k < 15) {c : Char} (h : startsText p c = true) : startsText k c = true := by
  have hne : (k != 15) = true := bne_iff_ne.mpr (by omega)
  rw [startsText, hne]
  revert h
  simp only [startsText, Bool.or_eq_true, Bool.and_eq_true, Bool.true_and]
  exact Or.imp_right And.right

/-- The text is read as the tree, and holds together as tightly as `prec` says. -/
structure Prints (cs : List Char) (prec : Nat) (t : Tree) : Prop where
  tokens : ∃ ts, Written prec ts t ∧ Spells cs ts (Stops prec t)
  start : ∃ c ds, cs = c :: ds ∧ startsText prec c = true

namespace Stops

variable {p q : Nat} {t u : Tree} {c : Option Char}

theorem noNamePart (h : Stops p t c) : NoNamePart c := by
  intro d hd
  rcases h d hd with hmem | ⟨rfl, -⟩
  · simp only [List.mem_cons, List.not_mem_nil, or_false] at hmem
    rcases hmem with rfl | rfl | rfl | rfl | rfl | rfl | rfl <;> decide
  · decide

theorem noNumberPart (h : Stops p t c) (ht : t.isNumber = true) : NoNumberPart c := by
  intro d hd
  refine ⟨h.noNamePart d hd, ?_⟩
  rintro rfl
  rcases h '.' hd with hmem | ⟨-, -, hnumber⟩
  · simp at hmem
  · rw [ht] at hnumber
    cases hnumber

/-- What ends an expression that is not primary ends each of its operands. -/
theorem last (h : Stops p t c) (hp : p < 15) : Stops q u c := fun d hd =>
  .inl ((h d hd).resolve_right fun hpoint => by omega)

theorem of_mem {d : Char} (hd : d ∈ [' ', '(', ')', '[', ']', ',', '}']) (c : Option Char) :
    Stops p t ((some d).or c) := by
  intro e he
  cases he
  exact .inl hd

end Stops

section
variable {ds : List Char} {us : List Token} {q : Option Char → Prop}

/-- A sign is a token of its own before a text that does not go on with it. -/
theorem Spells.sign {s : String} {t : Token} (h : Spells ds us q) (hs : (s, t) ∈ signs)
    (hnext : ∀ c, q c → ∀ d ∈ continuations s, ds.head?.or c ≠ some d) :
    Spells (s.toList ++ ds) (t :: us) q := (spells_sign hs).append h hnext

theorem Spells.space (h : Spells ds us q) : Spells (' ' :: ds) us q :=
  Spells.blank (p := fun _ => True) |>.append h fun _ _ => trivial

theorem Spells.bracket {c : Char} {t : Token} (h : Spells ds us q) (hs : (String.singleton c, t) ∈ signs)
    (hnext : continuations (String.singleton c) = []) : Spells (c :: ds) (t :: us) q := by
  have hall := h.sign hs (by simp [hnext])
  rwa [String.toList_singleton] at hall

theorem spells_operator {s : String} {t : Token} (hs : (s, t) ∈ signs)
    (hspace : ' ' ∉ continuations s) (h : Spells ds us q) :
    Spells (' ' :: (s.toList ++ ' ' :: ds)) (t :: us) q := by
  refine (h.space.sign hs ?_).space
  rintro c - d hd heq
  cases heq
  exact hspace hd

end

namespace Prints

variable {cs ds : List Char} {p q k : Nat} {t u : Tree}

theorem reads (h : Prints cs p t) (t' : Tree) : Reads cs t' ↔ t' = t := by
  obtain ⟨⟨ts, hwritten, hspells⟩, -⟩ := h
  have hlevel : 2 ≤ p := by rcases hwritten.level with hlevel | rfl <;> omega
  have hall := hwritten.whole ⟨le_rfl, by decide⟩ hlevel (show Loose _ [] by rintro _ ⟨⟩)
  have hreads : Reads cs t := ⟨ts, hspells.lexes (by rintro _ ⟨⟩), by rwa [List.append_nil] at hall⟩
  exact ⟨fun h' => hreads.functional h', fun h' => h' ▸ hreads⟩

theorem parens (h : Prints cs p t) (hp : p < 15) : Prints ('(' :: (cs ++ [')'])) 15 t := by
  obtain ⟨⟨ts, hwritten, hspells⟩, -⟩ := h
  refine ⟨⟨_, hwritten.parens hp, ?_⟩, _, _, rfl, rfl⟩
  have hclose : Spells [')'] [.rparen] (Stops 15 t) := Spells.nil.bracket (by decide) (by decide)
  exact (hspells.append hclose fun c _ => .of_mem (by simp) c).bracket (by decide) (by decide)

theorem binary {s : String} (h : Prints cs p t) (h' : Prints ds q u) (hs : binaryLevel? s = some k)
    (hsign : (s, .op s) ∈ signs) (hspace : ' ' ∉ continuations s) (hp : k ≤ p) (hq : k + 1 ≤ q) :
    Prints (cs ++ ' ' :: (s.toList ++ ' ' :: ds)) k (.binary s t u) := by
  obtain ⟨⟨ts, hwritten, hspells⟩, c, cs, rfl, hstart⟩ := h
  obtain ⟨⟨us, hwritten', hspells'⟩, -⟩ := h'
  have hk := (binaryLevel?_le hs).2
  refine ⟨⟨_, hwritten.binary hwritten' hs hp hq, ?_⟩, _, _, rfl, startsText_mono (by omega) hstart⟩
  refine hspells.append (spells_operator hsign hspace (hspells'.mono fun c hc => ?_)) fun c _ => .of_mem (by simp) c
  exact hc.last (by omega)

end Prints

structure NamesType (ds : List Char) (type : TypeName) : Prop where
  words : IsTypeName type.words
  spells : Spells ds type.tokens NoNamePart

/-- Only some characters begin an expression, and a sign that comes before it does not go on with them. -/
theorem sign_ends {p : Nat} {s c d : Char} (hs : s = '-' ∨ s = '!' ∨ s = '~') (hc : startsText p c = true)
    (hne : s = '-' → c ≠ '-') (hd : d ∈ continuations (String.singleton s)) : c ≠ d := by
  have hminus : continuations "-" = ['>', '-', '='] := by decide
  have hnot : continuations "!" = ['='] := by decide
  have htilde : continuations "~" = [] := by decide
  rintro rfl
  have hc' : c ≠ '>' ∧ c ≠ '=' := by constructor <;> (rintro rfl; simp [startsText, isNameStart] at hc)
  rcases hs with rfl | rfl | rfl
  · change c ∈ continuations "-" at hd
    simp [hminus, hc', hne rfl] at hd
  · change c ∈ continuations "!" at hd
    simp [hnot, hc'] at hd
  · change c ∈ continuations "~" at hd
    simp [htilde] at hd

namespace Prints

variable {cs ds : List Char} {p q k : Nat} {t u : Tree}

theorem instanceOf {type : TypeName} (h : Prints cs p t) (hp : 9 ≤ p) (htype : NamesType ds type) :
    Prints (cs ++ ' ' :: ("instanceof".toList ++ ' ' :: ds)) 9 (.instanceOf t type) := by
  obtain ⟨⟨ts, hwritten, hspells⟩, c, cs, rfl, hstart⟩ := h
  have hword : Spells "instanceof".toList [.word "instanceof"] NoNamePart :=
    spells_word (isName_of_all rfl)
  refine ⟨⟨_, hwritten.instanceOf hp htype.words, ?_⟩, _, _, rfl, startsText_mono (by decide) hstart⟩
  refine hspells.append (hword.append htype.spells.space ?_).space ?_ |>.mono fun c hc => hc.noNamePart
  · rintro c - d hd
    cases hd
    decide
  · exact fun c _ => .of_mem (by simp) c

theorem signed {s : Char} (h : Prints cs p t) (hs : s = '-' ∨ s = '!' ∨ s = '~')
    (hne : s = '-' → cs.head? ≠ some '-') {k : Nat} (hk : k < 15) {u : Tree} :
    ∃ ts, Written p ts t ∧ Spells (s :: cs) (.op (String.singleton s) :: ts) (Stops k u) := by
  obtain ⟨⟨ts, hwritten, hspells⟩, c, cs, rfl, hstart⟩ := h
  have hsigns : (String.singleton s, .op (String.singleton s)) ∈ signs := by
    rcases hs with rfl | rfl | rfl <;> decide
  have hoperand := hspells.mono fun c (hc : Stops k u c) => hc.last hk
  have hall := hoperand.sign hsigns fun e _ d hd heq =>
    sign_ends hs hstart (fun hs hc => hne hs (hc ▸ rfl)) hd (Option.some.inj heq)
  rw [String.toList_singleton] at hall
  exact ⟨ts, hwritten, hall⟩

theorem unary {s : Char} (h : Prints cs p t) (hs : s = '-' ∨ s = '!' ∨ s = '~')
    (hne : s = '-' → cs.head? ≠ some '-') (hp : 13 ≤ p) :
    Prints (s :: cs) 13 (.unary (String.singleton s) t) := by
  obtain ⟨ts, hwritten, hspells⟩ := h.signed hs hne (k := 13) (u := .unary (String.singleton s) t) (by decide)
  refine ⟨⟨_, hwritten.unary (by rcases hs with rfl | rfl | rfl <;> simp) hp, hspells⟩, _, _, rfl, ?_⟩
  rcases hs with rfl | rfl | rfl <;> rfl

theorem cast {type : TypeName} (h : Prints cs p t) (htype : NamesType ds type)
    (hsign : type.isPrimitive = true ∨ ∀ u, t ≠ .unary "-" u) (hp : 13 ≤ p) :
    Prints ('(' :: (ds ++ ')' :: ' ' :: cs)) 13 (.cast type t) := by
  obtain ⟨⟨ts, hwritten, hspells⟩, -⟩ := h
  have hhead : type.isPrimitive = true ∨ ts.head? ≠ some (.op "-") := hsign.imp_right fun hsign hhead => by
    obtain ⟨-, u, hu⟩ := hwritten.sign hp "-" hhead
    exact hsign u hu
  refine ⟨⟨_, hwritten.cast htype.words hhead hp, ?_⟩, _, _, rfl, rfl⟩
  have hoperand := hspells.mono fun c (hc : Stops 13 (.cast type t) c) => hc.last (by decide)
  have hclose : Spells (')' :: ' ' :: cs) (.rparen :: ts) _ := hoperand.space.bracket (by decide) (by decide)
  refine (htype.spells.append hclose ?_).bracket (by decide) (by decide)
  rintro c - d hd
  cases hd
  decide

theorem choice {r : Nat} {es : List Char} {v : Tree} (h : Prints cs p t) (h' : Prints ds q u) (h'' : Prints es r v)
    (hp : 3 ≤ p) : Prints (cs ++ ' ' :: '?' :: ' ' :: (ds ++ ' ' :: ':' :: ' ' :: es)) 2 (.choice t u v) := by
  obtain ⟨⟨ts, hwritten, hspells⟩, c, cs, rfl, hstart⟩ := h
  obtain ⟨⟨us, hwritten', hspells'⟩, -⟩ := h'
  obtain ⟨⟨vs, hwritten'', hspells''⟩, -⟩ := h''
  refine ⟨⟨_, hwritten.choice hwritten' hwritten'' hp, ?_⟩, _, _, rfl, startsText_mono (by decide) hstart⟩
  have hlast := hspells''.mono fun c (hc : Stops 2 (.choice t u v) c) => hc.last (by decide)
  have helse := spells_operator (s := ":") (t := .colon) (by decide) (by decide) hlast
  have hthen := hspells'.append helse fun c _ => .of_mem (by simp) c
  have hall := spells_operator (s := "?") (t := .question) (by decide) (by decide) hthen
  exact hspells.append hall fun c _ => .of_mem (by simp) c

theorem field {w : String} (h : Prints cs 15 t) (ht : t.isNumber = false) (hw : IsName w)
    (hkeyword : keywords.contains w = false) : Prints (cs ++ '.' :: w.toList) 15 (.field t w) := by
  obtain ⟨⟨ts, hwritten, hspells⟩, c, cs, rfl, hstart⟩ := h
  refine ⟨⟨_, hwritten.field hkeyword, ?_⟩, _, _, rfl, hstart⟩
  have hname := (spells_word hw).mono fun c (hc : Stops 15 (.field t w) c) => hc.noNamePart
  obtain ⟨d, ds, hds, hd, -⟩ := hw
  have hpoint := hname.sign (s := ".") (t := .dot) (by decide) fun c _ e he heq => by
    have hdot : continuations "." = ['.'] := by decide
    rw [hdot, List.mem_singleton] at he
    rw [hds, he] at heq
    cases heq
    cases hd
  refine hspells.append hpoint fun c _ e he => ?_
  cases he
  exact .inr ⟨rfl, rfl, ht⟩

theorem index (h : Prints cs 15 t) (hnew : t.isNewArray = false) (h' : Prints ds p u) :
    Prints (cs ++ '[' :: (ds ++ [']'])) 15 (.index t u) := by
  obtain ⟨⟨ts, hwritten, hspells⟩, c, cs, rfl, hstart⟩ := h
  obtain ⟨⟨us, hwritten', hspells'⟩, -⟩ := h'
  refine ⟨⟨_, hwritten.index hnew hwritten', ?_⟩, _, _, rfl, hstart⟩
  have hclose : Spells [']'] [.rbracket] (Stops 15 (.index t u)) := Spells.nil.bracket (by decide) (by decide)
  have hinner := (hspells'.append hclose fun c _ => .of_mem (by simp) c).bracket (c := '[') (t := .lbracket)
    (by decide) (by decide)
  exact hspells.append hinner fun c _ => .of_mem (by simp) c

end Prints

def commaText : List (List Char) → List Char
  | [] => []
  | [cs] => cs
  | cs :: rest => cs ++ ',' :: ' ' :: commaText rest

abbrev PrintsAll (css : List (List Char)) (trees : List Tree) : Prop :=
  List.Forall₂ (fun cs t => ∃ p, Prints cs p t) css trees

def ListEnds (c : Option Char) : Prop := c = some ')' ∨ c = some '}'

theorem ListEnds.stops {p : Nat} {t : Tree} {c : Option Char} (h : ListEnds c) : Stops p t c := by
  intro d hd
  rcases h with rfl | rfl <;> cases hd <;> simp

theorem PrintsAll.tokens {css : List (List Char)} {trees : List Tree} (h : PrintsAll css trees) :
    ∃ es, WrittenAll es trees ∧ Spells (commaText css) (commaTokens es) ListEnds := by
  induction h with
  | nil => exact ⟨[], .nil, Spells.nil⟩
  | @cons cs t css trees hcs hrest ih =>
      obtain ⟨p, ⟨ts, hwritten, hspells⟩, -⟩ := hcs
      obtain ⟨es, hwritten', hspells'⟩ := ih
      refine ⟨ts :: es, .cons ⟨p, hwritten⟩ hwritten', ?_⟩
      cases hwritten' with
      | nil =>
          cases hrest
          exact hspells.mono fun c hc => hc.stops
      | cons he hes =>
          cases hrest
          exact hspells.append (hspells'.space.bracket (c := ',') (t := .comma) (by decide) (by decide))
            fun c _ => .of_mem (by simp) c

theorem PrintsAll.closed {css : List (List Char)} {trees : List Tree} (h : PrintsAll css trees) {c d : Char}
    {a b : Token} {q : Option Char → Prop} (hopen : (String.singleton c, a) ∈ signs)
    (hopen' : continuations (String.singleton c) = []) (hclose : (String.singleton d, b) ∈ signs)
    (hclose' : continuations (String.singleton d) = []) (hd : ListEnds (some d)) :
    ∃ es, WrittenAll es trees ∧
      Spells (c :: (commaText css ++ [d])) (a :: (commaTokens es ++ [b])) q := by
  obtain ⟨es, hwritten, hspells⟩ := h.tokens
  refine ⟨es, hwritten, (hspells.append (Spells.nil.bracket hclose hclose') fun e _ => ?_).bracket hopen hopen'⟩
  exact hd

def sizeText (css : List (List Char)) : List Char := css.flatMap fun cs => '[' :: (cs ++ [']'])

theorem PrintsAll.sizes {css : List (List Char)} {trees : List Tree} (h : PrintsAll css trees)
    {q : Option Char → Prop} :
    ∃ es, WrittenAll es trees ∧ (css ≠ [] → es ≠ []) ∧ Spells (sizeText css) (sizeTokens es) q := by
  induction h with
  | nil => exact ⟨[], .nil, fun hne => absurd rfl hne, Spells.nil⟩
  | @cons cs t css trees hcs _ ih =>
      obtain ⟨p, ⟨ts, hwritten, hspells⟩, -⟩ := hcs
      obtain ⟨es, hwritten', -, hspells'⟩ := ih
      refine ⟨ts :: es, .cons ⟨p, hwritten⟩ hwritten', fun _ => List.cons_ne_nil _ _, ?_⟩
      have hrest := hspells'.bracket (c := ']') (t := .rbracket) (by decide) (by decide)
      have hall := (hspells.append hrest fun c _ => .of_mem (by simp) c).bracket (c := '[') (t := .lbracket)
        (by decide) (by decide)
      simpa [sizeText, sizeTokens] using hall

def bracketText (n : Nat) : List Char := (List.replicate n ['[', ']']).flatten

theorem spells_brackets (n : Nat) {q : Option Char → Prop} : Spells (bracketText n) (bracketTokens n) q := by
  induction n with
  | zero => exact Spells.nil
  | succ n ih => exact (ih.bracket (c := ']') (by decide) (by decide)).bracket (c := '[') (by decide) (by decide)

theorem spells_new {ds : List Char} {us : List Token} {q : Option Char → Prop} (h : Spells ds us q) :
    Spells ("new".toList ++ ' ' :: ds) (.word "new" :: us) q := by
  refine (spells_word (isName_of_all rfl)).append h.space ?_
  rintro c - d hd
  cases hd
  decide

theorem NamesType.before {ds es : List Char} {us : List Token} {type : TypeName} {q : Option Char → Prop} {c : Char}
    (h : NamesType ds type) (hes : Spells (c :: es) us q) (hc : isNamePart c = false) :
    Spells (ds ++ c :: es) (type.tokens ++ us) q := by
  refine h.spells.append hes ?_
  rintro e - d hd
  cases hd
  exact hc

namespace Prints

variable {cs ds : List Char} {css : List (List Char)} {trees : List Tree} {p : Nat} {t u : Tree}

theorem call (h : Prints cs 15 t) (ht : t.isCallable = true) (h' : PrintsAll css trees) :
    Prints (cs ++ '(' :: (commaText css ++ [')'])) 15 (.call t trees) := by
  obtain ⟨⟨ts, hwritten, hspells⟩, c, cs, rfl, hstart⟩ := h
  obtain ⟨es, hwritten', hspells'⟩ := h'.closed (c := '(') (d := ')') (a := .lparen) (b := .rparen)
    (q := Stops 15 (.call t trees)) (by decide) (by decide) (by decide) (by decide) (.inl rfl)
  exact ⟨⟨_, hwritten.call ht hwritten', hspells.append hspells' fun c _ => .of_mem (by simp) c⟩, _, _, rfl, hstart⟩

theorem new {us : List Token} (h : Written 15 (.word "new" :: us) t) (h' : Spells ds us (Stops 15 t)) :
    Prints ("new".toList ++ ' ' :: ds) 15 t := ⟨⟨_, h, spells_new h'⟩, 'n', _, rfl, rfl⟩

theorem create {words : List String} (htype : NamesType ds ⟨words, 0⟩) (h : PrintsAll css trees) :
    Prints ("new".toList ++ ' ' :: (ds ++ '(' :: (commaText css ++ [')']))) 15 (.create words trees) := by
  obtain ⟨es, hwritten, hspells⟩ := h.closed (c := '(') (d := ')') (a := .lparen) (b := .rparen)
    (q := Stops 15 (.create words trees)) (by decide) (by decide) (by decide) (by decide) (.inl rfl)
  refine .new (written_create htype.words hwritten) ?_
  have hall := htype.before hspells (by decide)
  rwa [TypeName.tokens, bracketTokens, List.replicate_zero, List.flatten_nil, List.append_nil] at hall

theorem fill {type : TypeName} (htype : NamesType ds type) (hdims : type.dims ≠ 0) (h : PrintsAll css trees) :
    Prints ("new".toList ++ ' ' :: (ds ++ '\x7b' :: (commaText css ++ ['\x7d']))) 15 (.fill type trees) := by
  obtain ⟨es, hwritten, hspells⟩ := h.closed (c := '\x7b') (d := '\x7d') (a := .lbrace) (b := .rbrace)
    (q := Stops 15 (.fill type trees)) (by decide) (by decide) (by decide) (by decide) (.inr rfl)
  exact .new (written_fill htype.words hdims hwritten) (htype.before hspells (by decide))

theorem newArray {words : List String} (htype : NamesType ds ⟨words, 0⟩) (h : PrintsAll css trees) (hne : css ≠ [])
    (dims : Nat) :
    Prints ("new".toList ++ ' ' :: (ds ++ (sizeText css ++ bracketText dims))) 15 (.newArray words trees dims) := by
  obtain ⟨es, hwritten, hes, hspells⟩ := h.sizes (q := fun _ => True)
  refine .new (written_newArray htype.words hwritten (hes hne) dims) ?_
  have hsizes := hspells.append (spells_brackets dims) (q := Stops 15 (.newArray words trees dims)) fun _ _ => trivial
  obtain ⟨cs, css, rfl⟩ := List.exists_cons_of_ne_nil hne
  have hall := htype.before (c := '[') hsizes (by decide)
  rwa [TypeName.tokens, show bracketTokens 0 = [] from rfl, List.append_nil] at hall

end Prints

end JavaLift.Source
