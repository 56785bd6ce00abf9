import JavaLift.Proofs.Source.Literals

namespace JavaLift.Source

def nameWords (s : String) : List String := (s.toList.splitOn '.').map String.ofList

def typeNameOf : Ty → TypeName
  | .array t => ⟨(typeNameOf t).words, (typeNameOf t).dims + 1⟩
  | t => ⟨nameWords t.javaName, 0⟩

def nameTree : List String → Tree
  | [] => .word ""
  | w :: words => words.foldl .field (.word w)

def classTree (s : String) : Tree := nameTree (nameWords s)

structure Shape where
  arg : Arg
  tree : Tree
  inner : List Tree

namespace Shape

/-- The operands of a three way comparison, which a condition compares directly. -/
def compared? (o : Shape) : Option (Tree × Tree) :=
  match o.arg, o.inner with
  | .tree head _, [x, y] => match head.op with
    | .compare _ => some (x, y)
    | _ => none
  | _, _ => none

def isTruth (o : Shape) : Bool := Operand.isTruth ⟨o.arg, .word "", []⟩

end Shape

def zeroTree (cmp : CmpOp) (o : Shape) : Tree :=
  if o.isTruth && cmp == .eq then .unary "!" o.tree
  else if o.isTruth && cmp == .ne then o.tree
  else .binary cmp.symbol o.tree (if o.arg.type.resolved.isReference then .word "null" else .number "0")

def conditionTree (cmp : CmpOp) : List Shape → Tree
  | [x, y] => .binary cmp.symbol x.tree y.tree
  | [o] => match o.compared? with
    | some (x, y) => .binary cmp.symbol x y
    | none => zeroTree cmp o
  | _ => .word "false"

def choiceTree (cmp : CmpOp) (conditions : List Shape) (a b : Shape) : Tree :=
  match truth? a.arg, truth? b.arg with
  | some true, some false => conditionTree cmp conditions
  | some false, some true => conditionTree cmp.negate conditions
  | _, _ => .choice (conditionTree cmp conditions) a.tree b.tree

def newArrayTree (type : Ty) (size : Tree) : Tree :=
  let element := typeNameOf (type.element?.getD .int)
  .newArray element.words [size] element.dims

def callTree (s : Place) (kind : InvokeKind) (m : MethodRef) (os : List Shape) : Tree :=
  match kind, os with
  | .static, os => .call (.field (classTree (s.classText m.className)) m.name) (os.map (·.tree))
  | kind, receiver :: os =>
    if m.isConstructor then .call (.word (if m.className = s.className then "this" else "super")) (os.map (·.tree))
    else
      .call (.field (if kind = .super then .word "super" else receiver.tree) m.name) (os.map (·.tree))
  | _, [] => .word ""

def nodeTree (s : Place) (head : Head) (os : List Shape) : Tree :=
  match head.op, os with
  | .const, [o] | .move, [o] => o.tree
  | .checkCast t, [o] | .cast _ t, [o] => .cast (typeNameOf t) o.tree
  | .instanceOf t, [o] => .instanceOf o.tree (typeNameOf t)
  | .arrayLength, [o] => .field o.tree "length"
  | .newArray t, [o] => newArrayTree t o.tree
  | .filledNewArray t, os => .fill (typeNameOf t) (os.map (·.tree))
  | .compare t, [x, y] => .call (.field (.word (comparingClass t)) "compare") [x.tree, y.tree]
  | .arith op _, [x, y] => .binary op.symbol x.tree y.tree
  | .neg _, [o] => .unary "-" o.tree
  | .not t, [o] => .unary (if t.resolved == .boolean then "!" else "~") o.tree
  | .arrayGet _, [x, y] => .index x.tree y.tree
  | .instanceGet f, [o] => .field o.tree f.name
  | .staticGet f, _ => .field (classTree (s.classText f.className)) f.name
  | .invoke kind m, os => callTree s kind m os
  | .construct m, os => .create (nameWords (s.classText m.className)) (os.map (·.tree))
  | .ternary cmp n, os => match os.drop n with
    | [a, b] => choiceTree cmp (os.take n) a b
    | _ => .word ""
  | _, _ => .word ""

section
variable (s : Place) (names : Register → String)

mutual

def shape : Arg → Shape
  | .reg r => ⟨.reg r, .word (names r), []⟩
  | .lit value type => ⟨.lit value type, literalTree value type, []⟩
  | .tree head args => ⟨.tree head args, nodeTree s head (shapes args), (shapes args).map (·.tree)⟩

def shapes : List Arg → List Shape
  | [] => []
  | a :: rest => shape a :: shapes rest

end

/-- The conditions on literals and on instructions with their operands hold throughout an argument. -/
structure Demand where
  literal : Int → Ty → Prop
  node : Head → List Shape → Prop

mutual

def Holds (demand : Demand) : Arg → Prop
  | .reg _ => True
  | .lit value type => demand.literal value type
  | .tree head args => demand.node head (shapes s names args) ∧ HoldAll demand args

def HoldAll (demand : Demand) : List Arg → Prop
  | [] => True
  | a :: rest => Holds demand a ∧ HoldAll demand rest

end

end

def IsIdentifier (w : String) : Prop := IsName w ∧ keywords.contains w = false

def IsClassName (s : String) : Prop := ∀ w ∈ nameWords s, IsIdentifier w

def IsType (t : Ty) : Prop := ∀ w ∈ (typeNameOf t).words, IsName w ∧ isTypeWord w = true

/-- A call of a method by its class, on a receiver, or of a constructor on the receiver of the method around it. -/
def IsCall (s : Place) (kind : InvokeKind) (m : MethodRef) (os : List Shape) : Prop :=
  match kind, os with
  | .static, _ => IsClassName (s.classText m.className) ∧ IsIdentifier m.name
  | kind, receiver :: _ =>
    if m.isConstructor then s.isReceiver receiver.arg = true
    else IsIdentifier m.name ∧ (kind = .super ∨ receiver.tree.isNumber = false)
  | _, [] => False

def One (p : Shape → Prop) : List Shape → Prop
  | [o] => p o
  | _ => False

def Two (p : Shape → Shape → Prop) : List Shape → Prop
  | [x, y] => p x y
  | _ => False

/-- An instruction has the operands that it needs, names what can be named, and takes nothing from a number. -/
def IsNode (s : Place) (head : Head) (os : List Shape) : Prop :=
  match head.op with
  | .const | .move | .neg _ | .not _ => One (fun _ => True) os
  | .checkCast t | .cast _ t | .instanceOf t => One (fun _ => IsType t) os
  | .arrayLength => One (fun o => o.tree.isNumber = false) os
  | .newArray t => One (fun _ => IsType t ∧ (typeNameOf t).dims ≠ 0) os
  | .filledNewArray t => IsType t ∧ (typeNameOf t).dims ≠ 0
  | .compare _ | .arith .. | .arrayGet _ => Two (fun _ _ => True) os
  | .instanceGet f => One (fun o => IsIdentifier f.name ∧ o.tree.isNumber = false) os
  | .staticGet f => IsClassName (s.classText f.className) ∧ IsIdentifier f.name
  | .invoke kind m => IsCall s kind m os
  | .construct m => IsClassName (s.classText m.className)
  | .ternary _ n => (n = 1 ∨ n = 2) ∧ os.length = n + 2
  | _ => False

/-- What an expression needs to have a text at all. -/
def wellFormed (s : Place) : Demand := ⟨fun _ _ => True, IsNode s⟩

/-- What an expression needs for its text to say it: no element is taken from an array where it is made, no number
with a sign is cast to a type that is not primitive, and no character is the end of a line. -/
def plain : Demand where
  literal value type := type.resolved = .char → StandsAsChar value
  node head os :=
    match head.op, os with
    | .arrayGet _, [x, _] => x.tree.isNewArray = false
    | .checkCast t, [o] | .cast _ t, [o] => (typeNameOf t).isPrimitive = true ∨ ∀ u, o.tree ≠ .unary "-" u
    | _, _ => True

theorem intercalate_flatMap (c : Char) (cs : List Char) (css : List (List Char)) :
    [c].intercalate (cs :: css) = cs ++ css.flatMap (c :: ·) := by
  induction css generalizing cs with
  | nil => simp
  | cons ds css ih => simp [ih]

theorem nameWords_text (s : String) :
    ∃ w words, nameWords s = w :: words ∧ s.toList = w.toList ++ words.flatMap fun v => '.' :: v.toList := by
  obtain ⟨cs, css, hsplit⟩ := List.exists_cons_of_ne_nil (List.splitOn_ne_nil '.' s.toList)
  refine ⟨String.ofList cs, css.map String.ofList, by rw [nameWords, hsplit]; rfl, ?_⟩
  have hall : ['.'].intercalate (s.toList.splitOn '.') = s.toList := List.intercalate_splitOn '.'
  rw [hsplit, intercalate_flatMap] at hall
  rw [← hall]
  simp [List.flatMap_map]

theorem spells_point {w : String} {ds : List Char} {us : List Token} {q : Option Char → Prop} (hw : IsName w)
    (h : Spells (w.toList ++ ds) us q) : Spells ('.' :: (w.toList ++ ds)) (.dot :: us) q := by
  obtain ⟨c, cs, hcs, hc, -⟩ := hw
  refine h.sign (s := ".") (by decide) fun d _ e he heq => ?_
  have hdot : continuations "." = ['.'] := by decide
  rw [hdot, List.mem_singleton] at he
  rw [hcs, he] at heq
  cases heq
  cases hc

theorem spells_words {w : String} {words : List String} (h : ∀ v ∈ w :: words, IsName v) :
    Spells (w.toList ++ words.flatMap fun v => '.' :: v.toList) (wordTokens (w :: words)) NoNamePart := by
  induction words generalizing w with
  | nil => simpa [wordTokens] using spells_word (h w List.mem_cons_self)
  | cons v words ih =>
      obtain ⟨hw, hv⟩ := List.forall_mem_cons.mp h
      have hrest := spells_point (hv v List.mem_cons_self) (ih hv)
      have hall := (spells_word hw).append hrest fun c _ d hd => by cases hd; decide
      simpa [wordTokens] using hall

theorem spells_name {s : String} (h : ∀ w ∈ nameWords s, IsName w) :
    Spells s.toList (wordTokens (nameWords s)) NoNamePart := by
  obtain ⟨w, words, hwords, htext⟩ := nameWords_text s
  rw [hwords] at h ⊢
  rw [htext]
  exact spells_words h

theorem javaName_text (t : Ty) :
    ∃ s, (typeNameOf t).words = nameWords s ∧ t.javaName.toList = s.toList ++ bracketText (typeNameOf t).dims := by
  induction t with
  | array t ih =>
      obtain ⟨s, hwords, htext⟩ := ih
      refine ⟨s, hwords, ?_⟩
      rw [Ty.javaName, String.toList_append, htext, List.append_assoc]
      simp [typeNameOf, bracketText, List.replicate_succ']
  | _ => exact ⟨_, rfl, by simp [typeNameOf, bracketText]⟩

theorem IsType.names {t : Ty} (h : IsType t) : NamesType t.javaName.toList (typeNameOf t) := by
  obtain ⟨s, hwords, htext⟩ := javaName_text t
  obtain ⟨w, words, hcons, -⟩ := nameWords_text s
  refine ⟨⟨by rw [hwords, hcons]; exact List.cons_ne_nil _ _, fun w hw => (h w hw).2⟩, ?_⟩
  have hspells := spells_name (s := s) fun w hw => (h w (hwords ▸ hw)).1
  rw [htext, TypeName.tokens, hwords]
  refine hspells.append (spells_brackets _) fun c hc d hd => ?_
  cases hdims : (typeNameOf t).dims with
  | zero => exact hc d (by simpa [hdims, bracketText] using hd)
  | succ n =>
      simp only [hdims, bracketText, List.replicate_succ, List.flatten_cons, List.cons_append, List.head?_cons,
        Option.some_or, Option.some.injEq] at hd
      rw [← hd]
      decide

/-- The innermost elements of an array have the words of its type, and its brackets are those that remain. -/
theorem dimensions_text (t : Ty) : (typeNameOf t).words = nameWords (dimensions t).1.javaName ∧
    (dimensions t).2.toList = bracketText (typeNameOf t).dims := by
  induction t with
  | array t ih =>
      refine ⟨ih.1, ?_⟩
      rw [dimensions, String.toList_append, ih.2, typeNameOf, bracketText, bracketText, List.replicate_succ]
      rfl
  | _ => exact ⟨rfl, by simp [dimensions, typeNameOf, bracketText]⟩

theorem IsIdentifier.isOperandWord {w : String} (h : IsIdentifier w) : isOperandWord w = true := by
  rw [Source.isOperandWord, h.2]
  rfl

theorem IsIdentifier.isTypeWord {w : String} (h : IsIdentifier w) : isTypeWord w = true := by
  rw [Source.isTypeWord, h.2]
  rfl

theorem written_fields {ts : List Token} {t : Tree} (h : Written 15 ts t) {words : List String}
    (hwords : ∀ w ∈ words, IsIdentifier w) :
    Written 15 (ts ++ words.flatMap fun v => [.dot, .word v]) (words.foldl .field t) := by
  induction words generalizing ts t with
  | nil => simpa using h
  | cons w words ih =>
      obtain ⟨hw, hwords⟩ := List.forall_mem_cons.mp hwords
      simpa using ih (h.field hw.2) hwords

theorem written_class {s : String} (h : IsClassName s) : Written 15 (wordTokens (nameWords s)) (classTree s) := by
  obtain ⟨w, words, hwords, -⟩ := nameWords_text s
  rw [IsClassName, hwords, List.forall_mem_cons] at h
  rw [classTree, hwords]
  exact written_fields (written_word h.1.isOperandWord) h.2

theorem prints_class {s : String} (h : IsClassName s) : Prints s.toList 15 (classTree s) := by
  refine ⟨⟨_, written_class h, (spells_name fun w hw => (h w hw).1).mono fun c hc => hc.noNamePart⟩, ?_⟩
  obtain ⟨w, words, hwords, htext⟩ := nameWords_text s
  obtain ⟨c, cs, hcs, hc, -⟩ := (h w (hwords ▸ List.mem_cons_self)).1
  rw [hcs] at htext
  exact ⟨c, _, htext, by simp [startsText, hc]⟩

theorem isNumber_fields {t : Tree} (ht : t.isNumber = false) (words : List String) :
    (words.foldl .field t).isNumber = false := by
  induction words generalizing t with
  | nil => exact ht
  | cons w words ih => exact ih rfl

theorem isNumber_class (s : String) : (classTree s).isNumber = false := by
  obtain ⟨w, words, hwords, -⟩ := nameWords_text s
  rw [classTree, hwords]
  exact isNumber_fields rfl words

theorem namesType_words {s : String} (h : ∀ w ∈ nameWords s, IsName w ∧ isTypeWord w = true) :
    NamesType s.toList ⟨nameWords s, 0⟩ := by
  obtain ⟨w, words, hwords, -⟩ := nameWords_text s
  refine ⟨⟨by rw [hwords]; exact List.cons_ne_nil _ _, fun w hw => (h w hw).2⟩, ?_⟩
  simpa [TypeName.tokens, bracketTokens] using spells_name fun w hw => (h w hw).1

theorem IsClassName.names {s : String} (h : IsClassName s) : NamesType s.toList ⟨nameWords s, 0⟩ :=
  namesType_words fun w hw => ⟨(h w hw).1, (h w hw).isTypeWord⟩

theorem castType?_minus {s : String} (hs : IsClassName s) (rest : List Token) :
    castType? (wordTokens (nameWords s) ++ .rparen :: .op "-" :: rest) = none := by
  obtain ⟨w, words, hwords, -⟩ := nameWords_text s
  have htype : IsTypeName (nameWords s) :=
    ⟨by rw [hwords]; exact List.cons_ne_nil _ _, fun w hw => (hs w hw).isTypeWord⟩
  have hname : typeName? ((⟨nameWords s, 0⟩ : TypeName).tokens ++ .rparen :: .op "-" :: rest) =
      some (⟨nameWords s, 0⟩, .rparen :: .op "-" :: rest) := typeName?_tokens htype (by simp) (by simp)
  rw [TypeName.tokens, show bracketTokens 0 = [] from rfl, List.append_nil] at hname
  have hprimitive : (⟨nameWords s, 0⟩ : TypeName).isPrimitive = false := by
    rw [TypeName.isPrimitive, List.any_eq_false]
    rintro v hv heq
    have hkeyword : keywords.contains v = true := by
      simp only [primitives, List.mem_cons, List.not_mem_nil, or_false] at hv
      rcases hv with rfl | rfl | rfl | rfl | rfl | rfl | rfl | rfl <;> rfl
    have hwords : nameWords s = [v] := congrArg TypeName.words (eq_of_beq heq)
    have hidentifier := hs v (by rw [hwords]; exact List.mem_singleton_self v)
    rw [hidentifier.2] at hkeyword
    cases hkeyword
  rw [castType?, hname]
  simp [hprimitive, beginsOperand]

/-- A minus behind the name of a class in brackets has the name as its left operand. -/
theorem written_minus {s : String} (hs : IsClassName s) {q : Nat} {us : List Token} {u : Tree} (h : Written q us u)
    (hq : 12 ≤ q) :
    Written 11 (.lparen :: (wordTokens (nameWords s) ++ .rparen :: .op "-" :: us)) (.binary "-" (classTree s) u) where
  level := by omega
  first := ⟨_, _, rfl, .inl rfl⟩
  sign := by omega
  shape := .inl (noType_cons rfl (by simp))
  brackets := by omega
  reads := by
    intro rest v out hrest _ _ hafter
    simp only [List.cons_append, List.append_assoc]
    refine .operand (by decide) (.operand (by decide) ?_ (.done ?_)) (.binary rfl (h.whole (by decide) hq hrest) hafter)
    · refine .plain (by simp) ?_ (.parens ((written_class hs).free (a := .rparen) rfl) (.done ?_))
      · rintro us ⟨⟩
        exact castType?_minus hs _
      · rintro _ ⟨⟩
        decide
    · rintro _ ⟨⟩
      decide

theorem prints_minus {s : String} (hs : IsClassName s) {cs : List Char} {q : Nat} {u : Tree} (h : Prints cs q u)
    (hhead : cs.head? ≠ some '-') (hq : 12 ≤ q) :
    Prints ('(' :: (s.toList ++ ')' :: ' ' :: '-' :: cs)) 11 (.binary "-" (classTree s) u) := by
  obtain ⟨ts, hwritten, hspells⟩ := h.signed (.inl rfl) (fun _ => hhead) (k := 11) (u := .binary "-" (classTree s) u)
    (by decide)
  refine ⟨⟨_, written_minus hs hwritten hq, ?_⟩, _, _, rfl, rfl⟩
  have hclose := hspells.space.bracket (c := ')') (t := .rparen) (by decide) (by decide)
  refine ((spells_name fun w hw => (hs w hw).1).append hclose ?_).bracket (by decide) (by decide)
  rintro c - d hd
  cases hd
  decide

end JavaLift.Source
