import JavaLift.Fault
import JavaLift.Insn.Printer
import JavaLift.Source.Literal

/-!
Expressions. The text of an expression leaves open how its registers are called, and what its evaluation comes
across is listed beside it in the order of evaluation. Brackets stand only where an operator binds less tightly
than its place demands.
-/

namespace JavaLift.Source

/-- How tightly an expression holds together: the more, the tighter. -/
abbrev Prec := Nat

namespace Prec

def none : Prec := 0
def conditional : Prec := 2
def bitOr : Prec := 5
def bitXor : Prec := 6
def bitAnd : Prec := 7
def equality : Prec := 8
def relational : Prec := 9
def shift : Prec := 10
def additive : Prec := 11
def multiplicative : Prec := 12
def unary : Prec := 13
def primary : Prec := 15

def ofArith : ArithOp → Prec
  | .add | .sub => additive
  | .mul | .div | .rem => multiplicative
  | .shl | .shr | .ushr => shift
  | .and => bitAnd
  | .xor => bitXor
  | .or => bitOr

def ofCmp : CmpOp → Prec
  | .eq | .ne => equality
  | _ => relational

end Prec

inductive Piece where
  | text (s : String)
  | name (r : Register)

/-- What the evaluation of an expression comes across. -/
inductive Event where
  | read (r : Register)
  | remark (d : Diagnostic)

structure Phrase where
  pieces : List Piece
  events : List Event

namespace Phrase

def text (s : String) : Phrase := ⟨[.text s], []⟩

def name (r : Register) : Phrase := ⟨[.name r], [.read r]⟩

instance : Append Phrase := ⟨fun p q => ⟨p.pieces ++ q.pieces, p.events ++ q.events⟩⟩
instance : HAppend String Phrase Phrase := ⟨fun s p => text s ++ p⟩
instance : HAppend Phrase String Phrase := ⟨fun p s => p ++ text s⟩

def commaList : List Phrase → Phrase
  | [] => ⟨[], []⟩
  | [p] => p
  | p :: rest => p ++ ", " ++ commaList rest

/-- The same text, evaluated in the order of the given phrases. -/
def inOrder (p : Phrase) (parts : List Phrase) : Phrase := ⟨p.pieces, parts.flatMap (·.events)⟩

def remark (kind : DiagnosticKind) (message : String) : Phrase := ⟨[], [.remark ⟨kind, message⟩]⟩

/-- The text begins with the character. No name begins with the sign of an operator. -/
def piecesBegin (c : Char) : List Piece → Bool
  | .text s :: rest => match s.toList with
    | d :: _ => d == c
    | [] => piecesBegin c rest
  | .name _ :: _ => false
  | [] => false

def beginsWith (p : Phrase) (c : Char) : Bool := piecesBegin c p.pieces

end Phrase

structure Expr extends Phrase where
  prec : Prec

namespace Expr

def primary (p : Phrase) : Expr := ⟨p, Prec.primary⟩

def word (s : String) : Expr := primary (.text s)

def within (e : Expr) (demand : Prec) : Phrase := if e.prec < demand then "(" ++ e.toPhrase ++ ")" else e.toPhrase

def binary (left : Expr) (symbol : String) (right : Expr) (prec : Prec) : Expr :=
  ⟨left.within prec ++ (" " ++ symbol ++ " ") ++ right.within (prec + 1), prec⟩

/-- An operator before its operand. Two equal signs do not stand together. -/
def unary (symbol : Char) (operand : Expr) : Expr :=
  let inner := operand.within Prec.unary
  let sign := String.singleton symbol
  ⟨if inner.beginsWith symbol then sign ++ "(" ++ inner ++ ")" else sign ++ inner, Prec.unary⟩

def cast (type : Ty) (operand : Expr) : Expr :=
  ⟨"(" ++ type.javaName ++ ") " ++ operand.within Prec.unary, Prec.unary⟩

def arguments (es : List Expr) : Phrase := .commaList (es.map fun e => e.within Prec.none)

end Expr

structure Operand where
  arg : Arg
  expr : Expr
  inner : List Expr

structure Place where
  className : String
  receiver : Option Nat

namespace Place

def isReceiver (s : Place) (a : Arg) : Bool := s.receiver.isSome && (a.reg?.bind (·.var)) == s.receiver

def classText (s : Place) (className : String) : String :=
  if className = s.className then Ty.simpleClassName className else Ty.shortClassName className

end Place

/-- The operands of a three way comparison, which a condition compares directly. -/
def Operand.compared? (o : Operand) : Option (Expr × Expr) :=
  match o.arg, o.inner with
  | .tree head _, [x, y] => match head.op with
    | .compare _ => some (x, y)
    | _ => none
  | _, _ => none

def Operand.isTruth (o : Operand) : Bool :=
  o.arg.type.resolved == .boolean || o.arg.insn?.any fun i => match i.op with
    | .instanceOf _ => true
    | _ => false

def zeroTest (cmp : CmpOp) (o : Operand) : Expr :=
  if o.isTruth && cmp == .eq then .unary '!' o.expr
  else if o.isTruth && cmp == .ne then o.expr
  else
    let prec := Prec.ofCmp cmp
    let zero := if o.arg.type.resolved.isReference then "null" else "0"
    ⟨o.expr.within prec ++ (" " ++ cmp.symbol ++ " " ++ zero), prec⟩

def condition (cmp : CmpOp) : List Operand → Expr
  | [x, y] => .binary x.expr cmp.symbol y.expr (Prec.ofCmp cmp)
  | [o] => match o.compared? with
    | some (x, y) => .binary x cmp.symbol y (Prec.ofCmp cmp)
    | none => zeroTest cmp o
  | _ => .word "false"

def truth? : Arg → Option Bool
  | .lit value type => if type.resolved == .boolean then some (value != 0) else none
  | .tree head (a :: _) => if head.op == .const then truth? a else none
  | _ => none

/-- A value that depends on a comparison. A choice between true and false is the comparison itself. -/
def choice (cmp : CmpOp) (conditions : List Operand) (a b : Operand) : Expr :=
  match truth? a.arg, truth? b.arg with
  | some true, some false => condition cmp conditions
  | some false, some true => condition cmp.negate conditions
  | _, _ =>
    ⟨(condition cmp conditions).within (Prec.conditional + 1) ++ " ? " ++ a.expr.within (Prec.conditional + 1)
      ++ " : " ++ b.expr.within Prec.conditional, Prec.conditional⟩

def dimensions : Ty → Ty × String
  | .array t =>
    let (element, brackets) := dimensions t
    (element, "[]" ++ brackets)
  | t => (t, "")

/-- The text of a call on a receiver, whose arguments are evaluated first. -/
def callOn (target : Phrase) (name : String) (values : Phrase) : Expr :=
  .primary ((target ++ ("." ++ name ++ "(") ++ values ++ ")").inOrder [values, target])

/-- A call of a constructor: on the receiver of the method it is `this` or `super`, on anything else it has lost
the instance that it belongs to. -/
def constructorCall (s : Place) (m : MethodRef) (receiver : Operand) (values : Phrase) : Expr :=
  if s.isReceiver receiver.arg then
    .primary ((if m.className = s.className then "this" else "super") ++ ("(" ++ values ++ ")"))
  else
    let lost := Phrase.remark .unfoldedConstructor
      ("constructor " ++ m.className ++ ".<init> is not attached to its allocation")
    let target := receiver.expr.within Prec.primary
    .primary ((target ++ ".<init>(" ++ values ++ ")").inOrder [values, lost, target])

def call (s : Place) (kind : InvokeKind) (m : MethodRef) (os : List Operand) : Expr :=
  let onClass (values : Phrase) : Expr := .primary ((s.classText m.className ++ "." ++ m.name ++ "(") ++ values ++ ")")
  match kind, os with
  | .static, os => onClass (Expr.arguments (os.map (·.expr)))
  | _, [] => if kind = .super then .word ("super." ++ m.name ++ "()") else onClass (Expr.arguments [])
  | kind, receiver :: os =>
    let values := Expr.arguments (os.map (·.expr))
    if m.isConstructor then constructorCall s m receiver values
    else if kind = .super then .primary (("super." ++ m.name ++ "(") ++ values ++ ")")
    else callOn (receiver.expr.within Prec.primary) m.name values

def comparingClass (t : Ty) : String :=
  match t.resolved with
  | .float => "Float"
  | .double => "Double"
  | _ => "Long"

def newArray (type : Ty) (size : Expr) : Expr :=
  let (element, brackets) := dimensions (type.element?.getD .int)
  .primary (("new " ++ element.javaName ++ "[") ++ size.within Prec.none ++ ("]" ++ brackets))

/-- The expression of an instruction, given its operands. One with the wrong number of them goes by the text of its
listing. -/
def node (s : Place) (head : Head) (args : List Arg) (os : List Operand) : Expr :=
  let listed : Expr := .word (Insn.mnemonic ⟨head, args⟩)
  match head.op, os with
  | .const, [o] | .move, [o] => o.expr
  | .constString text, _ => .word (stringLiteral text)
  | .constClass t, _ => .word (t.javaName ++ ".class")
  | .checkCast t, [o] | .cast _ t, [o] => .cast t o.expr
  | .instanceOf t, [o] => ⟨o.expr.within Prec.relational ++ (" instanceof " ++ t.javaName), Prec.relational⟩
  | .arrayLength, [o] => .primary (o.expr.within Prec.primary ++ ".length")
  | .newInstance t, _ =>
    .primary (Phrase.remark .unfoldedConstructor ("allocation of " ++ t.javaName ++ " is not followed by its constructor")
      ++ ("new " ++ t.javaName))
  | .newArray t, [o] => newArray t o.expr
  | .filledNewArray t, os =>
    .primary (("new " ++ t.javaName ++ "\x7b") ++ Expr.arguments (os.map (·.expr)) ++ "\x7d")
  | .compare t, [x, y] =>
    .primary ((comparingClass t ++ ".compare(") ++ Expr.arguments [x.expr, y.expr] ++ ")")
  | .arith op _, [x, y] => .binary x.expr op.symbol y.expr (Prec.ofArith op)
  | .neg _, [o] => .unary '-' o.expr
  | .not t, [o] => .unary (if t.resolved == .boolean then '!' else '~') o.expr
  | .arrayGet _, [x, y] => .primary (x.expr.within Prec.primary ++ "[" ++ y.expr.within Prec.none ++ "]")
  | .instanceGet f, [o] => .primary (o.expr.within Prec.primary ++ ("." ++ f.name))
  | .staticGet f, _ => .word (s.classText f.className ++ "." ++ f.name)
  | .invoke kind m, os => call s kind m os
  | .construct m, os =>
    .primary (("new " ++ s.classText m.className ++ "(") ++ Expr.arguments (os.map (·.expr)) ++ ")")
  | .ternary cmp n, os => match os.drop n with
    | [a, b] => choice cmp (os.take n) a b
    | _ => listed
  | _, _ => listed

/-- A literal. A sign counts as an operator. -/
def literalExpr (value : Int) (type : Ty) : Expr :=
  let text := literal value type
  ⟨.text text, if text.toList.head? = some '-' then Prec.unary else Prec.primary⟩

mutual

def operand (s : Place) : Arg → Operand
  | .reg r => ⟨.reg r, .primary (.name r), []⟩
  | .lit value type => ⟨.lit value type, literalExpr value type, []⟩
  | .tree head args =>
    let os := operands s args
    ⟨.tree head args, node s head args os, os.map (·.expr)⟩

def operands (s : Place) : List Arg → List Operand
  | [] => []
  | a :: rest => operand s a :: operands s rest

end

def insnExpr (s : Place) (i : Insn) : Expr := (operand s i.toArg).expr

end JavaLift.Source
