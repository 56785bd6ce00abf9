import JavaLift.Proofs.Source.Trees
import JavaLift.Source.Method

namespace JavaLift.Source

def Phrase.spelled (names : Register → String) (p : Phrase) : String :=
  String.join (p.pieces.map fun
    | .text s => s
    | .name r => names r)

theorem phraseText_eq (d : Draft) (p : Phrase) : d.phraseText p = p.spelled d.registerName := rfl

section
variable (names : Register → String)

def Phrase.chars (p : Phrase) : List Char := (p.spelled names).toList

@[simp] theorem chars_text (s : String) : (Phrase.text s).chars names = s.toList := by
  simp [Phrase.chars, Phrase.spelled, Phrase.text]

@[simp] theorem chars_name (r : Register) : (Phrase.name r).chars names = (names r).toList := by
  simp [Phrase.chars, Phrase.spelled, Phrase.name]

@[simp] theorem chars_append (p q : Phrase) : (p ++ q).chars names = p.chars names ++ q.chars names := by
  have hpieces : (p ++ q).pieces = p.pieces ++ q.pieces := rfl
  simp [Phrase.chars, Phrase.spelled, hpieces]

@[simp] theorem chars_appendText (p : Phrase) (s : String) : (p ++ s).chars names = p.chars names ++ s.toList := by
  rw [← chars_text names s, ← chars_append]
  rfl

@[simp] theorem chars_textAppend (s : String) (p : Phrase) : (s ++ p).chars names = s.toList ++ p.chars names := by
  rw [← chars_text names s, ← chars_append]
  rfl

@[simp] theorem chars_inOrder (p : Phrase) (parts : List Phrase) : (p.inOrder parts).chars names = p.chars names := rfl

end

def AreNames (names : Register → String) : Prop := ∀ r, IsIdentifier (names r) ∨ names r = "this"

theorem AreNames.word {names : Register → String} (h : AreNames names) (r : Register) :
    IsName (names r) ∧ isOperandWord (names r) = true := by
  rcases h r with ⟨hname, hkeyword⟩ | hthis
  · exact ⟨hname, by rw [isOperandWord, hkeyword]; rfl⟩
  · rw [hthis]
    exact ⟨isName_of_all rfl, rfl⟩

/-- A text begins with a sign exactly if it does so as far as its pieces tell. -/
theorem head?_eq_some_iff {names : Register → String} (hnames : AreNames names) {c : Char}
    (hc : isNameStart c = false) {p : Phrase} : (p.chars names).head? = some c ↔ p.beginsWith c = true := by
  obtain ⟨ps, events⟩ := p
  rw [Phrase.beginsWith, Phrase.chars, Phrase.spelled, String.toList_join]
  dsimp only
  induction ps with
  | nil => simp [Phrase.piecesBegin]
  | cons p ps ih =>
      cases p with
      | text s =>
          cases hs : s.toList with
          | nil => simpa [Phrase.piecesBegin, hs] using ih
          | cons d ds => simp [Phrase.piecesBegin, hs]
      | name r =>
          obtain ⟨d, ds, hd, hstart, -⟩ := (hnames.word r).1
          have hne : d ≠ c := by
            rintro rfl
            rw [hc] at hstart
            cases hstart
          simp [Phrase.piecesBegin, hd, hne]

/-- The text of the expression is read as the tree, and holds together as tightly as its precedence says. -/
abbrev Renders (names : Register → String) (e : Expr) (t : Tree) : Prop := Prints (e.toPhrase.chars names) e.prec t

theorem Prints.le {cs : List Char} {p : Nat} {t : Tree} (h : Prints cs p t) : p ≤ 15 := by
  obtain ⟨⟨ts, hwritten, -⟩, -⟩ := h
  rcases hwritten.level with hlevel | rfl <;> omega

section
variable {names : Register → String} {e f : Expr} {t u : Tree}

theorem Renders.within (h : Renders names e t) {k : Nat} (hd : k ≤ 15) :
    ∃ p, k ≤ p ∧ Prints ((e.within k).chars names) p t := by
  unfold Expr.within
  split_ifs with hlt
  · refine ⟨15, hd, ?_⟩
    simpa using h.parens (lt_of_lt_of_le hlt hd)
  · exact ⟨e.prec, not_lt.mp hlt, h⟩

theorem Renders.primary (h : Renders names e t) : Prints ((e.within Prec.primary).chars names) 15 t := by
  obtain ⟨p, hp, hprints⟩ := h.within (k := Prec.primary) le_rfl
  obtain rfl : p = 15 := le_antisymm hprints.le hp
  exact hprints

theorem Renders.free (h : Renders names e t) : ∃ p, Prints ((e.within Prec.none).chars names) p t := by
  obtain ⟨p, -, hprints⟩ := h.within (k := Prec.none) (by decide)
  exact ⟨p, hprints⟩

theorem renders_binary {s : String} {k : Nat} (h : Renders names e t) (h' : Renders names f u)
    (hs : binaryLevel? s = some k) (hsign : (s, .op s) ∈ signs) (hspace : ' ' ∉ continuations s) :
    Renders names (.binary e s f k) (.binary s t u) := by
  have hk := binaryLevel?_le hs
  obtain ⟨p, hp, hprints⟩ := h.within (k := k) (by omega)
  obtain ⟨q, hq, hprints'⟩ := h'.within (k := k + 1) (by omega)
  have hall := hprints.binary hprints' hs hsign hspace hp hq
  simpa [Renders, Expr.binary] using hall

/-- What stands behind an operator before its operand does not begin with a minus after a minus. -/
theorem unary_text (hnames : AreNames names) {s : Char} (h : Renders names e t) (hs : s = '-' ∨ s = '!' ∨ s = '~') :
    ∃ cs q, 13 ≤ q ∧ Prints cs q t ∧ (s = '-' → cs.head? ≠ some '-') ∧
      (Expr.unary s e).toPhrase.chars names = s :: cs := by
  obtain ⟨p, hp, hprints⟩ := h.within (k := Prec.unary) (by decide)
  have hiff := head?_eq_some_iff hnames (c := s) (by rcases hs with rfl | rfl | rfl <;> rfl) (p := e.within Prec.unary)
  by_cases hbegins : (e.within Prec.unary).beginsWith s = true
  · have hlt : p < 15 := by
      refine lt_of_le_of_ne hprints.le ?_
      rintro rfl
      obtain ⟨c, cs, hcs, hstart⟩ := hprints.start
      have hhead := hiff.mpr hbegins
      rw [hcs] at hhead
      cases hhead
      rcases hs with rfl | rfl | rfl <;> simp [startsText, isNameStart] at hstart
    refine ⟨_, 15, by decide, hprints.parens hlt, by simp, ?_⟩
    simp [Expr.unary, hbegins]
  · refine ⟨_, p, hp, hprints, fun hminus => hminus ▸ mt hiff.mp hbegins, ?_⟩
    simp [Expr.unary, hbegins]

theorem renders_unary (hnames : AreNames names) {s : Char} (h : Renders names e t) (hs : s = '-' ∨ s = '!' ∨ s = '~') :
    Renders names (.unary s e) (.unary (String.singleton s) t) := by
  obtain ⟨cs, q, hq, hprints, hhead, htext⟩ := unary_text hnames h hs
  rw [Renders, htext]
  exact hprints.unary hs hhead hq

/-- A cast of an operand with a sign to a class is read as a subtraction from what has the name of the class. -/
theorem cast_minus_reads (hnames : AreNames names) {className : String}
    (hclass : IsClassName (Ty.object className).javaName) (h : Renders names e t) (u : Tree) :
    Reads ((Expr.cast (.object className) (.unary '-' e)).toPhrase.chars names) u ↔
      u = .binary "-" (classTree (Ty.object className).javaName) t := by
  obtain ⟨cs, q, hq, hprints, hhead, htext⟩ := unary_text hnames h (.inl rfl)
  have hall := prints_minus hclass hprints (hhead rfl) (by omega)
  have hwithin : (Expr.unary '-' e).within Prec.unary = (Expr.unary '-' e).toPhrase := rfl
  simpa [Expr.cast, hwithin, htext] using hall.reads u

theorem renders_cast {type : Ty} (h : Renders names e t) (htype : NamesType type.javaName.toList (typeNameOf type))
    (hsign : (typeNameOf type).isPrimitive = true ∨ ∀ u, t ≠ .unary "-" u) :
    Renders names (.cast type e) (.cast (typeNameOf type) t) := by
  obtain ⟨p, hp, hprints⟩ := h.within (k := Prec.unary) (by decide)
  have hall := hprints.cast htype hsign hp
  simpa [Renders, Expr.cast, Prec.unary] using hall

theorem renders_instanceOf {type : Ty} (h : Renders names e t)
    (htype : NamesType type.javaName.toList (typeNameOf type)) :
    Renders names ⟨e.within Prec.relational ++ (" instanceof " ++ type.javaName), Prec.relational⟩
      (.instanceOf t (typeNameOf type)) := by
  obtain ⟨p, hp, hprints⟩ := h.within (k := Prec.relational) (by decide)
  have hall := hprints.instanceOf hp htype
  simpa [Renders, Prec.relational] using hall

theorem renders_choice {g : Expr} {v : Tree} (h : Renders names e t) (h' : Renders names f u)
    (h'' : Renders names g v) :
    Renders names ⟨e.within (Prec.conditional + 1) ++ " ? " ++ f.within (Prec.conditional + 1) ++ " : "
      ++ g.within Prec.conditional, Prec.conditional⟩ (.choice t u v) := by
  obtain ⟨p, hp, hprints⟩ := h.within (k := Prec.conditional + 1) (by decide)
  obtain ⟨q, hq, hprints'⟩ := h'.within (k := Prec.conditional + 1) (by decide)
  obtain ⟨r, hr, hprints''⟩ := h''.within (k := Prec.conditional) (by decide)
  have hall := hprints.choice hprints' hprints'' hp
  simpa [Renders, Prec.conditional] using hall

theorem renders_field {w : String} (h : Renders names e t) (ht : t.isNumber = false) (hw : IsIdentifier w) :
    Renders names (.primary (e.within Prec.primary ++ ("." ++ w))) (.field t w) := by
  have hall := h.primary.field ht hw.1 hw.2
  simpa [Renders, Expr.primary, Prec.primary] using hall

theorem renders_index (h : Renders names e t) (ht : t.isNewArray = false) (h' : Renders names f u) :
    Renders names (.primary (e.within Prec.primary ++ "[" ++ f.within Prec.none ++ "]")) (.index t u) := by
  obtain ⟨p, hprints⟩ := h'.free
  have hall := h.primary.index ht hprints
  simpa [Renders, Expr.primary, Prec.primary] using hall

end

abbrev RenderAll (names : Register → String) (es : List Expr) (trees : List Tree) : Prop :=
  List.Forall₂ (Renders names) es trees

section
variable {names : Register → String} {es : List Expr} {trees : List Tree}

theorem commaList_chars (ps : List Phrase) :
    (Phrase.commaList ps).chars names = commaText (ps.map (·.chars names)) := by
  fun_induction Phrase.commaList ps with
  | case1 => rfl
  | case2 p => rfl
  | case3 p rest hrest ih =>
      obtain ⟨q, rest, rfl⟩ := List.exists_cons_of_ne_nil (l := rest) hrest
      simpa [commaText] using ih

theorem RenderAll.prints (h : RenderAll names es trees) :
    ∃ css, (Expr.arguments es).chars names = commaText css ∧ PrintsAll css trees := by
  refine ⟨_, commaList_chars _, ?_⟩
  induction h with
  | nil => exact .nil
  | cons he _ ih => exact .cons he.free ih

theorem prints_call {w : String} {cs : List Char} {t : Tree} (h : Prints cs 15 t) (ht : t.isNumber = false)
    (hw : IsIdentifier w) (h' : RenderAll names es trees) :
    Prints (cs ++ '.' :: (w.toList ++ '(' :: ((Expr.arguments es).chars names ++ [')']))) 15
      (.call (.field t w) trees) := by
  obtain ⟨css, hcss, hprints⟩ := h'.prints
  have hall := (h.field ht hw.1 hw.2).call rfl hprints
  simpa [hcss] using hall

theorem comparingClass_isIdentifier (t : Ty) : IsIdentifier (comparingClass t) := by
  unfold comparingClass
  split <;> exact ⟨isName_of_all rfl, rfl⟩

theorem renders_comparing (type : Ty) {e f : Expr} {t u : Tree} (h : Renders names e t) (h' : Renders names f u) :
    Renders names (.primary ((comparingClass type ++ ".compare(") ++ Expr.arguments [e, f] ++ ")"))
      (.call (.field (.word (comparingClass type)) "compare") [t, u]) := by
  have hclass := comparingClass_isIdentifier type
  have hall := prints_call (w := "compare") (.word hclass.1 hclass.isOperandWord) rfl ⟨isName_of_all rfl, rfl⟩
    (.cons h (.cons h' .nil))
  simpa [Renders, Expr.primary, Prec.primary] using hall

theorem renders_create {s : String} (hs : IsClassName s) (h : RenderAll names es trees) :
    Renders names (.primary (("new " ++ s ++ "(") ++ Expr.arguments es ++ ")")) (.create (nameWords s) trees) := by
  obtain ⟨css, hcss, hprints⟩ := h.prints
  have hall := Prints.create hs.names hprints
  simpa [Renders, Expr.primary, Prec.primary, hcss] using hall

theorem renders_fill {type : Ty} (htype : IsType type) (hdims : (typeNameOf type).dims ≠ 0)
    (h : RenderAll names es trees) :
    Renders names (.primary (("new " ++ type.javaName ++ "\x7b") ++ Expr.arguments es ++ "\x7d"))
      (.fill (typeNameOf type) trees) := by
  obtain ⟨css, hcss, hprints⟩ := h.prints
  have hall := Prints.fill htype.names hdims hprints
  simpa [Renders, Expr.primary, Prec.primary, hcss] using hall

theorem element_names {element : Ty} (htype : IsType (.array element)) :
    NamesType (dimensions element).1.javaName.toList ⟨(typeNameOf element).words, 0⟩ := by
  have hwords := (dimensions_text element).1
  rw [hwords]
  exact namesType_words fun w hw => htype w (hwords ▸ hw)

theorem renders_newArray {type : Ty} {e : Expr} {t : Tree} (htype : IsType type) (hdims : (typeNameOf type).dims ≠ 0)
    (h : Renders names e t) : Renders names (newArray type e) (newArrayTree type t) := by
  obtain ⟨element, rfl⟩ : ∃ element, type = .array element := by
    cases type with
    | array element => exact ⟨element, rfl⟩
    | _ => exact absurd rfl hdims
  have hbrackets := (dimensions_text element).2
  obtain ⟨p, hprints⟩ := h.free
  have hall := Prints.newArray (element_names htype) (.cons ⟨p, hprints⟩ .nil) (by simp) (typeNameOf element).dims
  simpa [Renders, newArray, newArrayTree, Ty.element?, Expr.primary, Prec.primary, sizeText, hbrackets] using hall

/-- An element taken from an array where it is made is read as a size of the array. -/
theorem newArray_element_reads {element : Ty} {e f : Expr} {t u : Tree} (htype : IsType (.array element))
    (hdims : (typeNameOf element).dims = 0) (h : Renders names e t) (h' : Renders names f u) (v : Tree) :
    Reads (((newArray (.array element) e).within Prec.primary ++ "[" ++ f.within Prec.none ++ "]").chars names) v ↔
      v = .newArray (typeNameOf element).words [t, u] 0 := by
  have hbrackets := (dimensions_text element).2
  rw [hdims] at hbrackets
  obtain ⟨p, hprints⟩ := h.free
  obtain ⟨q, hprints'⟩ := h'.free
  have hall := Prints.newArray (element_names htype) (.cons ⟨p, hprints⟩ (.cons ⟨q, hprints'⟩ .nil)) (by simp) 0
  have hwithin : (newArray (.array element) e).within Prec.primary = (newArray (.array element) e).toPhrase := rfl
  have hempty : bracketText 0 = [] := rfl
  rw [hwithin]
  simpa [newArray, Ty.element?, Expr.primary, sizeText, hbrackets, hempty] using hall.reads v

end

structure IsOperator (symbol : String) (prec : Nat) : Prop where
  level : binaryLevel? symbol = some prec
  sign : (symbol, .op symbol) ∈ signs
  space : ' ' ∉ continuations symbol

theorem isOperator_cmp (cmp : CmpOp) : IsOperator cmp.symbol (Prec.ofCmp cmp) := by
  cases cmp <;> exact ⟨rfl, by decide, by decide⟩

theorem isOperator_arith (op : ArithOp) : IsOperator op.symbol (Prec.ofArith op) := by
  cases op <;> exact ⟨rfl, by decide, by decide⟩

theorem renders_literal (names : Register → String) (value : Int) (type : Ty)
    (h : type.resolved = .char → StandsAsChar value) :
    Renders names (literalExpr value type) (literalTree value type) := by
  simpa [Renders, literalExpr] using prints_literalExpr value type h

structure Matches (names : Register → String) (o : Operand) (sh : Shape) : Prop where
  arg : o.arg = sh.arg
  renders : Renders names o.expr sh.tree
  inner : RenderAll names o.inner sh.inner

section
variable {names : Register → String} {os : List Operand} {shs : List Shape} {o : Operand} {sh : Shape}

theorem Matches.isTruth (h : Matches names o sh) : o.isTruth = sh.isTruth := by
  rw [Operand.isTruth, h.arg]
  rfl

theorem Matches.compared? (h : Matches names o sh) :
    (o.compared? = none ∧ sh.compared? = none) ∨ ∃ x y t u, o.compared? = some (x, y) ∧
      sh.compared? = some (t, u) ∧ Renders names x t ∧ Renders names y u := by
  obtain ⟨arg, expr, inner⟩ := o
  obtain ⟨arg', tree, inner'⟩ := sh
  obtain ⟨rfl, -, hinner⟩ := h
  cases arg with
  | reg r => exact .inl ⟨rfl, rfl⟩
  | lit value type => exact .inl ⟨rfl, rfl⟩
  | tree head args =>
      match inner, inner', hinner with
      | [x, y], [t, u], .cons hx (.cons hy .nil) =>
        cases hop : head.op with
        | compare => exact .inr ⟨x, y, t, u, by simp [Operand.compared?, hop], by simp [Shape.compared?, hop], hx, hy⟩
        | _ => exact .inl ⟨by simp [Operand.compared?, hop], by simp [Shape.compared?, hop]⟩
      | [], [], _ => exact .inl ⟨rfl, rfl⟩
      | [_], [_], _ => exact .inl ⟨rfl, rfl⟩
      | _ :: _ :: _ :: _, _ :: _ :: _ :: _, _ => exact .inl ⟨rfl, rfl⟩

theorem renders_constant {e : Expr} {t u : Tree} (cmp : CmpOp) (h : Renders names e t) {s : String}
    (h' : Prints s.toList 15 u) :
    Renders names ⟨e.within (Prec.ofCmp cmp) ++ (" " ++ cmp.symbol ++ " " ++ s), Prec.ofCmp cmp⟩
      (.binary cmp.symbol t u) := by
  obtain ⟨hlevel, hsign, hspace⟩ := isOperator_cmp cmp
  have hk := binaryLevel?_le hlevel
  obtain ⟨p, hp, hprints⟩ := h.within (k := Prec.ofCmp cmp) (by omega)
  have hall := hprints.binary h' hlevel hsign hspace hp (by omega)
  simpa [Renders] using hall

theorem renders_zero (hnames : AreNames names) (cmp : CmpOp) (h : Matches names o sh) :
    Renders names (zeroTest cmp o) (zeroTree cmp sh) := by
  unfold zeroTest zeroTree
  rw [h.isTruth, h.arg]
  split_ifs with heq hne hreference
  · exact renders_unary hnames h.renders (.inr (.inl rfl))
  · exact h.renders
  · exact renders_constant cmp h.renders (.word (isName_of_all rfl) rfl)
  · exact renders_constant cmp h.renders (.number (isNumeral_repr 0 (.inl rfl)))

theorem renders_condition (hnames : AreNames names) (cmp : CmpOp) (h : List.Forall₂ (Matches names) os shs)
    (hlength : shs.length = 1 ∨ shs.length = 2) : Renders names (condition cmp os) (conditionTree cmp shs) := by
  obtain ⟨hlevel, hsign, hspace⟩ := isOperator_cmp cmp
  match os, shs, h with
  | [o], [sh], .cons ho .nil =>
    rw [condition, conditionTree]
    obtain ⟨hnone, hnone'⟩ | ⟨x, y, t, u, hsome, hsome', hx, hy⟩ := ho.compared?
    · rw [hnone, hnone']
      exact renders_zero hnames cmp ho
    · rw [hsome, hsome']
      exact renders_binary hx hy hlevel hsign hspace
  | [x, y], [t, u], .cons hx (.cons hy .nil) => exact renders_binary hx.renders hy.renders hlevel hsign hspace
  | [], [], _ => simp at hlength
  | _ :: _ :: _ :: _, _ :: _ :: _ :: _, _ => simp at hlength

theorem renders_ternary (hnames : AreNames names) (cmp : CmpOp) (h : List.Forall₂ (Matches names) os shs)
    (hlength : shs.length = 1 ∨ shs.length = 2) {a b : Operand} {c d : Shape} (ha : Matches names a c)
    (hb : Matches names b d) : Renders names (choice cmp os a b) (choiceTree cmp shs c d) := by
  have hchoice := renders_choice (renders_condition hnames cmp h hlength) ha.renders hb.renders
  unfold choice choiceTree
  rw [ha.arg, hb.arg]
  match truth? c.arg, truth? d.arg with
  | some true, some false => exact renders_condition hnames cmp h hlength
  | some false, some true => exact renders_condition hnames cmp.negate h hlength
  | some true, some true | some false, some false => exact hchoice
  | some true, none | some false, none => exact hchoice
  | none, _ => exact hchoice

theorem Matches.trees (h : List.Forall₂ (Matches names) os shs) :
    RenderAll names (os.map (·.expr)) (shs.map (·.tree)) := by
  induction h with
  | nil => exact .nil
  | cons ho _ ih => exact .cons ho.renders ih

theorem renders_constructor {s : Place} {m : MethodRef} (h : List.Forall₂ (Matches names) os shs)
    (ho : Matches names o sh) (hreceiver : s.isReceiver sh.arg = true) :
    Renders names (constructorCall s m o (Expr.arguments (os.map (·.expr))))
      (.call (.word (if m.className = s.className then "this" else "super")) (shs.map (·.tree))) := by
  obtain ⟨css, hcss, hprints⟩ := (Matches.trees h).prints
  rw [constructorCall, ho.arg, if_pos hreceiver]
  split_ifs
  · have hall := (Prints.word (s := "this") (isName_of_all rfl) rfl).call rfl hprints
    simpa [Renders, Expr.primary, Prec.primary, hcss] using hall
  · have hall := (Prints.word (s := "super") (isName_of_all rfl) rfl).call rfl hprints
    simpa [Renders, Expr.primary, Prec.primary, hcss] using hall

theorem renders_method {s : Place} {kind : InvokeKind} {m : MethodRef} (hkind : kind ≠ .static)
    (h : List.Forall₂ (Matches names) os shs) (ho : Matches names o sh) (hcall : IsCall s kind m (sh :: shs)) :
    Renders names (call s kind m (o :: os)) (callTree s kind m (sh :: shs)) := by
  have htrees := Matches.trees h
  have hcall' : if m.isConstructor then s.isReceiver sh.arg = true
      else IsIdentifier m.name ∧ (kind = .super ∨ sh.tree.isNumber = false) := by
    cases kind <;> first | exact hcall | exact absurd rfl hkind
  have htext : call s kind m (o :: os) =
      if m.isConstructor then constructorCall s m o (Expr.arguments (os.map (·.expr)))
      else if kind = .super then .primary (("super." ++ m.name ++ "(") ++ Expr.arguments (os.map (·.expr)) ++ ")")
      else callOn (o.expr.within Prec.primary) m.name (Expr.arguments (os.map (·.expr))) := by
    cases kind <;> first | rfl | exact absurd rfl hkind
  have htree : callTree s kind m (sh :: shs) =
      if m.isConstructor then
        .call (.word (if m.className = s.className then "this" else "super")) (shs.map (·.tree))
      else .call (.field (if kind = .super then .word "super" else sh.tree) m.name) (shs.map (·.tree)) := by
    cases kind <;> first | rfl | exact absurd rfl hkind
  rw [htext, htree]
  by_cases hconstructor : m.isConstructor = true
  · rw [if_pos hconstructor] at hcall' ⊢
    rw [if_pos hconstructor]
    exact renders_constructor h ho hcall'
  rw [if_neg hconstructor] at hcall' ⊢
  rw [if_neg hconstructor]
  by_cases hsuper : kind = .super
  · rw [if_pos hsuper, if_pos hsuper]
    have hall := prints_call (.word (s := "super") (isName_of_all rfl) rfl) rfl hcall'.1 htrees
    simpa [Renders, Expr.primary, Prec.primary] using hall
  · rw [if_neg hsuper, if_neg hsuper]
    have hall := prints_call ho.renders.primary (hcall'.2.resolve_left hsuper) hcall'.1 htrees
    simpa [Renders, callOn, Expr.primary, Prec.primary] using hall

theorem renders_invoke {s : Place} {kind : InvokeKind} {m : MethodRef} (h : List.Forall₂ (Matches names) os shs)
    (hcall : IsCall s kind m shs) : Renders names (call s kind m os) (callTree s kind m shs) := by
  by_cases hstatic : kind = .static
  · rw [hstatic] at hcall ⊢
    have hall := prints_call (prints_class hcall.1) (isNumber_class _) hcall.2 (Matches.trees h)
    simpa [Renders, call, callTree, Expr.primary, Prec.primary] using hall
  · cases h with
    | nil => cases kind <;> exact absurd hcall (by first | exact id | exact absurd rfl hstatic)
    | cons ho hos => exact renders_method hstatic hos ho hcall

theorem one_operand {p : Shape → Prop} (h : List.Forall₂ (Matches names) os shs) (hone : One p shs) :
    ∃ o sh, os = [o] ∧ shs = [sh] ∧ Matches names o sh ∧ p sh := by
  match os, shs, h with
  | [o], [sh], .cons ho .nil => exact ⟨o, sh, rfl, rfl, ho, hone⟩
  | [], [], _ => exact hone.elim
  | _ :: _ :: _, _ :: _ :: _, _ => exact hone.elim

theorem two_operands {p : Shape → Shape → Prop} (h : List.Forall₂ (Matches names) os shs) (htwo : Two p shs) :
    ∃ x y t u, os = [x, y] ∧ shs = [t, u] ∧ Matches names x t ∧ Matches names y u ∧ p t u := by
  match os, shs, h with
  | [x, y], [t, u], .cons hx (.cons hy .nil) => exact ⟨x, y, t, u, rfl, rfl, hx, hy, htwo⟩
  | [], [], _ => exact htwo.elim
  | [_], [_], _ => exact htwo.elim
  | _ :: _ :: _ :: _, _ :: _ :: _ :: _, _ => exact htwo.elim

theorem renders_node (hnames : AreNames names) {s : Place} {head : Head} {args : List Arg}
    (h : List.Forall₂ (Matches names) os shs) (hnode : IsNode s head shs) (hplain : plain.node head shs) :
    Renders names (node s head args os) (nodeTree s head shs) := by
  obtain ⟨op, result, offset, line⟩ := head
  cases op with
  | const | move =>
      obtain ⟨o, sh, rfl, rfl, ho, -⟩ := one_operand h hnode
      exact ho.renders
  | checkCast t | cast source t =>
      obtain ⟨o, sh, rfl, rfl, ho, htype⟩ := one_operand h hnode
      exact renders_cast ho.renders htype.names hplain
  | instanceOf t =>
      obtain ⟨o, sh, rfl, rfl, ho, htype⟩ := one_operand h hnode
      exact renders_instanceOf ho.renders htype.names
  | arrayLength =>
      obtain ⟨o, sh, rfl, rfl, ho, hnumber⟩ := one_operand h hnode
      exact renders_field (w := "length") ho.renders hnumber ⟨isName_of_all rfl, rfl⟩
  | newArray t =>
      obtain ⟨o, sh, rfl, rfl, ho, htype, hdims⟩ := one_operand h hnode
      exact renders_newArray htype hdims ho.renders
  | filledNewArray t => exact renders_fill hnode.1 hnode.2 (Matches.trees h)
  | compare t =>
      obtain ⟨x, y, t, u, rfl, rfl, hx, hy, -⟩ := two_operands h hnode
      exact renders_comparing _ hx.renders hy.renders
  | arith op t =>
      obtain ⟨x, y, t, u, rfl, rfl, hx, hy, -⟩ := two_operands h hnode
      obtain ⟨hlevel, hsign, hspace⟩ := isOperator_arith op
      exact renders_binary hx.renders hy.renders hlevel hsign hspace
  | neg t =>
      obtain ⟨o, sh, rfl, rfl, ho, -⟩ := one_operand h hnode
      exact renders_unary hnames ho.renders (.inl rfl)
  | not t =>
      obtain ⟨o, sh, rfl, rfl, ho, -⟩ := one_operand h hnode
      have htilde := renders_unary hnames ho.renders (.inr (.inr rfl))
      have hnot := renders_unary hnames ho.renders (.inr (.inl rfl))
      dsimp only [node, nodeTree]
      split_ifs
      · exact hnot
      · exact htilde
  | arrayGet t =>
      obtain ⟨x, y, t, u, rfl, rfl, hx, hy, -⟩ := two_operands h hnode
      exact renders_index hx.renders hplain hy.renders
  | instanceGet f =>
      obtain ⟨o, sh, rfl, rfl, ho, hname, hnumber⟩ := one_operand h hnode
      exact renders_field ho.renders hnumber hname
  | staticGet f =>
      have hall := (prints_class hnode.1).field (isNumber_class _) hnode.2.1 hnode.2.2
      simpa [Renders, node, nodeTree, Expr.word, Expr.primary, Prec.primary] using hall
  | invoke kind m => exact renders_invoke h hnode
  | construct m => exact renders_create hnode (Matches.trees h)
  | ternary cmp n =>
      obtain ⟨hn, hlength⟩ := hnode
      have htwo : Two (fun _ _ => True) (shs.drop n) := by
        obtain ⟨c, d, hcd⟩ := List.length_eq_two.mp (by rw [List.length_drop, hlength]; omega : (shs.drop n).length = 2)
        rw [hcd]
        trivial
      obtain ⟨a, b, c, d, hab, hcd, ha, hb, -⟩ := two_operands (List.forall₂_drop n h) htwo
      have htake : (shs.take n).length = 1 ∨ (shs.take n).length = 2 := by
        rw [List.length_take, hlength]
        omega
      simp only [node, nodeTree, hab, hcd]
      exact renders_ternary hnames cmp (List.forall₂_take n h) htake ha hb
  | _ => exact hnode.elim

end

section
variable {names : Register → String} (s : Place)

mutual

theorem matches_operand (hnames : AreNames names) (a : Arg) (h : Holds s names (wellFormed s) a)
    (h' : Holds s names plain a) : Matches names (operand s a) (shape s names a) := by
  cases a with
  | reg r =>
      refine ⟨rfl, ?_, .nil⟩
      have hword := hnames.word r
      simpa [Renders, operand, shape, Expr.primary, Prec.primary] using Prints.word hword.1 hword.2
  | lit value type => exact ⟨rfl, renders_literal names value type h', .nil⟩
  | tree head args =>
      rw [Holds] at h h'
      have hargs := matches_operands hnames args h.2 h'.2
      exact ⟨rfl, renders_node hnames hargs h.1 h'.1, Matches.trees hargs⟩

theorem matches_operands (hnames : AreNames names) (args : List Arg) (h : HoldAll s names (wellFormed s) args)
    (h' : HoldAll s names plain args) :
    List.Forall₂ (Matches names) (operands s args) (shapes s names args) := by
  cases args with
  | nil => exact .nil
  | cons a args =>
      rw [HoldAll] at h h'
      exact .cons (matches_operand hnames a h.1 h'.1) (matches_operands hnames args h.2 h'.2)

end

end

/-- The text of an expression, of an instruction or of a condition is read as its own operators, and as nothing
else. -/
theorem text_reads (s : Place) (names : Register → String) (hnames : AreNames names) :
    (∀ a, Holds s names (wellFormed s) a → Holds s names plain a →
      ∀ t, Reads ((operand s a).expr.spelled names).toList t ↔ t = (shape s names a).tree) ∧
    (∀ cmp args, args.length = 1 ∨ args.length = 2 → HoldAll s names (wellFormed s) args →
      HoldAll s names plain args →
      ∀ t, Reads ((condition cmp (operands s args)).spelled names).toList t ↔
        t = conditionTree cmp (shapes s names args)) := by
  refine ⟨fun a h h' t => (matches_operand s hnames a h h').renders.reads t, fun cmp args hlength h h' t => ?_⟩
  have hshapes : (shapes s names args).length = args.length := by
    clear hlength h h'
    induction args with
    | nil => rfl
    | cons a args ih => simp [shapes, ih]
  exact (renders_condition hnames cmp (matches_operands s hnames args h h') (hshapes ▸ hlength)).reads t

def letters (r : Register) : String := if r.reg = 0 then "i" else "j"

theorem letters_areNames : AreNames letters := by
  intro r
  left
  unfold letters
  split_ifs
  · exact ⟨isName_of_all rfl, rfl⟩
  · exact ⟨isName_of_all rfl, rfl⟩

def valueOf (op : Op) (args : List Arg) : Arg := .tree ⟨op, none, 0, none⟩ args

/-- The difference of a variable and the difference of another one and minus five. -/
def nestedDifference : Arg :=
  valueOf (.arith .sub .int) [.ofReg 0, valueOf (.arith .sub .int) [.ofReg 1, .lit (-5) .int]]

theorem text_reads_difference :
    (∀ t, Reads "i - (j - -5)".toList t ↔
      t = .binary "-" (.word "i") (.binary "-" (.word "j") (.unary "-" (.number "5")))) ∧
    ∀ t, Reads "i < j".toList t ↔ t = .binary "<" (.word "i") (.word "j") := by
  have h := text_reads ⟨"A", none⟩ letters letters_areNames
  have hdifference := h.1 nestedDifference ⟨trivial, trivial, ⟨trivial, trivial, trivial, trivial⟩, trivial⟩
    ⟨trivial, trivial, ⟨trivial, trivial, by rintro ⟨⟩, trivial⟩, trivial⟩
  have hcompared := h.2 .lt [valueOf (.compare .long) [.ofTyped 0 .long, .ofTyped 2 .long]] (.inl rfl)
    ⟨⟨trivial, trivial, trivial, trivial⟩, trivial⟩ ⟨⟨trivial, trivial, trivial, trivial⟩, trivial⟩
  exact ⟨hdifference, hcompared⟩

def elementOfNew : Arg := valueOf (.arrayGet .int) [valueOf (.newArray (.array .int)) [.lit 3 .int], .lit 0 .int]

/-- The element of a new array is read as an array with two dimensions. -/
theorem text_reads_fails : ¬ ∀ (s : Place) (names : Register → String), AreNames names →
    ∀ a, Holds s names (wellFormed s) a →
      ∀ t, Reads ((operand s a).expr.spelled names).toList t ↔ t = (shape s names a).tree := by
  intro h
  have hint : nameWords "int" = ["int"] := by decide
  have htype : IsType (.array .int) := by
    intro w hw
    obtain rfl : w = "int" := by simpa [typeNameOf, Ty.javaName, Ty.resolved, Ty.plainName, hint] using hw
    exact ⟨isName_of_all rfl, rfl⟩
  have hnode : Holds ⟨"A", none⟩ letters (wellFormed ⟨"A", none⟩) elementOfNew :=
    ⟨trivial, ⟨⟨htype, by decide⟩, trivial, trivial⟩, trivial, trivial⟩
  have hthree := renders_literal letters 3 .int (by rintro ⟨⟩)
  have hzero := renders_literal letters 0 .int (by rintro ⟨⟩)
  have hreads := (newArray_element_reads htype rfl hthree hzero _).mpr rfl
  have htree := (h _ _ letters_areNames elementOfNew hnode _).mp hreads
  cases htree

end JavaLift.Source
