import JavaLift.Flow.Graph
import JavaLift.Region.Structure
import JavaLift.Source.Expr
import JavaLift.Typing.Inference

/-!
The layout of a method: its lines, in order, with the scopes that braces open. Names and declarations are still
open, so one layout serves to find out where variables have to be declared and then to write the text. Scopes are
numbered as they open.
-/

namespace JavaLift.Source

/-- A method ready to be written: its signature, graph and region tree, the types of its variables, and the
variables of the receiver and of the parameters. -/
structure Lifted where
  signature : Signature
  graph : Graph
  tree : Structured
  types : Array Ty
  receiver : Option Nat
  params : List (Option Nat)

/-- Text that belongs to the instruction at `offset`. It begins a line unless it goes on with one. `source` is the
source line to note, and `comment` tells whether the offset may be shown. -/
structure Marked where
  goesOn : Bool
  offset : Nat
  source : Option Nat
  comment : Bool
  phrase : Phrase

inductive Catcher where
  | var (v : Nat)
  | block (b : Nat) (type : Ty)

/-- A part of a layout. An assignment of a register to itself is none. A label stands once, where it is met
first. -/
inductive Item where
  | line (text : String)
  | marked (m : Marked)
  | assign (head : Head) (result : Register) (value : Phrase)
  | handler (offset : Nat) (type : Ty) (catcher : Catcher)
  | label (block : Nat) (name : String)
  | indent
  | dedent
  | openScope (id : Nat)
  | closeScope

/-- Items that depend on the number of the next scope, and the number after them. -/
structure Layout where
  run : Nat → List Item × Nat

namespace Layout

/-- A layout that is worked out only where it is used. -/
def lazily (layout : Unit → Layout) : Layout := ⟨fun next => (layout ()).run next⟩

def of (items : List Item) : Layout := ⟨fun next => (items, next)⟩

def append (a b : Layout) : Layout :=
  ⟨fun next =>
    let (xs, next) := a.run next
    let (ys, next) := b.run next
    (xs ++ ys, next)⟩

instance : Append Layout := ⟨append⟩

def concat (ls : List Layout) : Layout := ls.foldr append (of [])

def inScope (inner : Layout) : Layout :=
  ⟨fun next =>
    let (items, after) := inner.run (next + 1)
    (.openScope next :: items ++ [.closeScope], after)⟩

def block (inner : Layout) : Layout := of [.indent] ++ inScope inner ++ of [.dedent]

def byScope (p : Nat → Bool) (a b : Layout) : Layout := ⟨fun next => if p next then a.run next else b.run next⟩

end Layout

namespace Lifted

def of (signature : Signature) (graph : Graph) (tree : Structured) (typing : Typing) : Lifted :=
  let (receiver, rest) :=
    if signature.isStatic then (none, typing.entryVars) else (typing.entryVars.head?, typing.entryVars.tail)
  ⟨signature, graph, tree, typing.types, receiver, (List.range signature.params.length).map fun i => rest[i]?⟩

variable (m : Lifted)

def place : Place := ⟨m.signature.className, m.receiver⟩

def isEntry (v : Nat) : Bool := m.receiver == some v || m.params.contains (some v)

def typeOf (v : Nat) : Ty := (m.types[v]?).getD .unknown

def labelOf (b : Nat) : String := labelName (m.graph.block b).start

/-- The block whose return at the end can be left out. -/
def tail? : Option Nat := if m.signature.ret = .void then m.tree.root.lastBlock? else none

def labelItems (b : Nat) : List Item :=
  if m.tree.labels.contains b then [.label b (m.labelOf b)] else []

def marked (i : Head) (comment : Bool) (phrase : Phrase) : Item := .marked ⟨false, i.offset, i.line, comment, phrase⟩

/-- A call of the constructor of the root class on the receiver, which goes without saying. -/
def isRootConstructorCall (i : Insn) : Bool :=
  match i.op, i.args with
  | .invoke _ c, [a] => c.isConstructor && c.className == Ty.objectClass && m.place.isReceiver a
  | _, _ => false

def fillPhrase (array : Operand) (data : List Int) : Phrase :=
  let element := (array.arg.type.element?).getD .int
  "fillArrayData(" ++ array.expr.within Prec.none ++ (", new " ++ element.javaName ++ "[]\x7b"
    ++ ", ".intercalate (data.map fun v => literal v element) ++ "\x7d)")

def statement? (i : Insn) : Option Phrase :=
  let os := operands m.place i.args
  let free (o : Operand) : Phrase := o.expr.within Prec.none
  match i.op, os with
  | .ret, [] => some (.text "return")
  | .ret, o :: _ => some ("return " ++ o.expr.toPhrase)
  | .throw, o :: _ => some ("throw " ++ free o)
  | .monitorEnter, o :: _ => some ("monitor-enter(" ++ free o ++ ")")
  | .monitorExit, o :: _ => some ("monitor-exit(" ++ free o ++ ")")
  | .arrayPut _, [a, index, value] =>
    some (a.expr.within Prec.primary ++ "[" ++ free index ++ "] = " ++ free value)
  | .instancePut f, [o, value] => some (o.expr.within Prec.primary ++ ("." ++ f.name ++ " = ") ++ free value)
  | .staticPut f, value :: _ => some ((m.place.classText f.className ++ "." ++ f.name ++ " = ") ++ free value)
  | .fillArray _ data, o :: _ => some (fillPhrase o data)
  | _, _ => none

def isSilentOp : Op → Bool
  | .nop | .goto _ | .jumpIf .. | .switchOn .. | .moveException _ => true
  | _ => false

def statementItems (i : Insn) : List Item :=
  if isSilentOp i.op then []
  else match m.statement? i with
    | some phrase => [marked i.toHead true (phrase ++ ";")]
    | none =>
      if m.isRootConstructorCall i then []
      else
        let value := (insnExpr m.place i).toPhrase
        match i.result with
        | some r => [.assign i.toHead r value]
        | none => [marked i.toHead true (value ++ ";")]

def isLastReturn (b : Nat) (i : Insn) (isLast : Bool) : Bool :=
  m.tail? == some b && isLast && i.op == .ret && i.args.isEmpty

def blockItems (b : Nat) : List Item :=
  let insns := (m.graph.block b).insns
  m.labelItems b ++ insns.zipIdx.flatMap fun (i, pos) =>
    if m.isLastReturn b i (pos + 1 == insns.length) then [] else m.statementItems i

def selector (i : Insn) : Phrase :=
  match operands m.place i.args with
  | o :: _ => o.expr.within Prec.none
  | [] => .text "?"

def comparison (cmp : CmpOp) (negated : Bool) (i : Insn) : Phrase :=
  (condition (if negated then cmp.negate else cmp) (operands m.place i.args)).toPhrase

def rawInsnItems (i : Insn) : List Item :=
  let jump (target : Nat) : String := "goto " ++ labelName target ++ ";"
  match i.op with
  | .goto target => [marked i.toHead true (.text (jump target))]
  | .jumpIf cmp target => [marked i.toHead true ("if (" ++ m.comparison cmp false i ++ (") " ++ jump target))]
  | .switchOn keys targets default =>
    [marked i.toHead true ("switch (" ++ m.selector i ++ ") \x7b"), .indent]
      ++ (keys.zip targets).map (fun (key, target) => .line ("case " ++ toString key ++ ": " ++ jump target))
      ++ (default.toList.map fun target => .line ("default: " ++ jump target))
      ++ [.dedent, .line "\x7d"]
  | _ => m.statementItems i

def rawItems (b : Nat) : List Item := m.labelItems b ++ (m.graph.block b).insns.flatMap m.rawInsnItems

mutual

def isSilent : Region → Bool
  | .seq items => allSilent items
  | .block b => !m.tree.labels.contains b && (m.graph.block b).insns.all fun i => match i.op with
    | .nop | .goto _ => true
    | _ => false
  | _ => false

def allSilent : List Region → Bool
  | [] => true
  | r :: rest => isSilent r && allSilent rest

end

def isPureComparison (header : Nat) : Bool :=
  ((m.graph.block header).terminator?).any fun i => i.args.all Arg.canReorder

/-- The block holds nothing but a comparison, so it can follow an `else` directly. -/
def isBareComparison (b : Nat) : Bool :=
  let block := m.graph.block b
  !m.tree.labels.contains b && block.endsInIf && block.statements.all fun i => i.op == .nop

/-- An arm of a comparison: how it is laid out in braces, and how as the comparison that follows an `else`, if it
can be one. -/
structure Arm where
  silent : Bool
  braced : Layout
  chained : Option Layout

/-- The arms in the order in which they are written, and whether the comparison is the other way round for it. An
arm for which nothing is written comes last, and goes if there is another one. -/
def orderArms (negated : Bool) (thenArm : Arm) (elseArm : Option Arm) : Bool × Arm × Option Arm :=
  match elseArm with
  | none => (negated, thenArm, none)
  | some e =>
    if thenArm.silent && !e.silent then (!negated, e, none)
    else if !thenArm.silent && e.silent then (negated, thenArm, none)
    else (negated, thenArm, some e)

/-- The part after the first arm. A comparison follows the `else` directly, unless its scope has declarations. -/
def elseLayout (hasDecls : Nat → Bool) : Option Arm → Layout
  | none => .of [.line "\x7d"]
  | some e =>
    let braced := .of [.line "\x7d else \x7b"] ++ .block e.braced ++ .of [.line "\x7d"]
    match e.chained with
    | some chained => .byScope hasDecls braced (.of [.line "\x7d else "] ++ .inScope chained)
    | none => braced

/-- A comparison at the end of a block, with its arms. `chained` is set where it follows an `else`. -/
def branchLayout (hasDecls : Nat → Bool) (chained : Bool) (header : Nat) (negated : Bool) (thenArm : Arm)
    (elseArm : Option Arm) : Layout :=
  let (negated, first, second) := orderArms negated thenArm elseArm
  if first.silent && !chained && m.isPureComparison header then .of (m.blockItems header)
  else
    .of (if chained then [] else m.blockItems header)
      ++ match (m.graph.block header).terminator?.map fun i => (i, i.op) with
        | some (i, .jumpIf cmp _) =>
          .of [.marked ⟨chained, i.offset, i.line, true, "if (" ++ m.comparison cmp negated i ++ ") \x7b"⟩]
            ++ .block first.braced ++ elseLayout hasDecls second
        | _ => first.braced ++ (second.elim (.of []) Arm.braced)

def loopMark (header : Nat) : String :=
  if m.tree.loopLabels.contains header then m.labelOf header ++ ": " else ""

def loopLine (i : Insn) (comment : Bool) (phrase : Phrase) : List Item :=
  [.marked ⟨false, i.offset, none, comment, phrase⟩]

/-- A loop. Where statements come before the comparison in its header, the comparison moves inside. -/
def loopLayout (kind : LoopKind) (header : Nat) (cond : Option Nat) (negated : Bool) (body : Layout) : Layout :=
  let name := m.loopMark header
  let last := (cond.bind fun b => (m.graph.block b).terminator?).bind fun i => match i.op with
    | .jumpIf cmp _ => some (i, cmp)
    | _ => none
  let closed (body : Layout) : Layout := .block body ++ .of [.line "\x7d"]
  .of (m.labelItems header) ++ match kind, last with
    | .whileDo, some (i, cmp) =>
      if (m.graph.block header).statements.all fun i => i.op == .nop then
        .of (loopLine i true ((name ++ "while (") ++ m.comparison cmp negated i ++ ") \x7b")) ++ closed body
      else
        .of [.line (name ++ "while (true) \x7b")] ++ closed (.of (m.blockItems header
          ++ loopLine i false ("if (" ++ m.comparison cmp (!negated) i ++ ") \x7b")
          ++ [.indent, .line "break;", .dedent, .line "\x7d"]) ++ body)
    | .doWhile, some (i, cmp) =>
      .of [.line (name ++ "do \x7b")] ++ .block body
        ++ .of (loopLine i true ("\x7d while (" ++ m.comparison cmp negated i ++ ");"))
    | _, _ => .of [.line (name ++ "while (true) \x7b")] ++ closed body

def caseLayout (head : CaseHead) (body : Layout) : Layout :=
  .of ((head.keys.map fun key => .line ("case " ++ toString key ++ ":"))
    ++ if head.isDefault then [.line "default:"] else []) ++ .block body

def switchLayout (header : Nat) (cases : List (CaseHead × Layout)) : Layout :=
  .of (m.blockItems header) ++ match (m.graph.block header).terminator?.map fun i => (i, i.op) with
    | some (i, .switchOn ..) =>
      .of [marked i.toHead true ("switch (" ++ m.selector i ++ ") \x7b"), .indent]
        ++ .concat (cases.map fun (head, body) => caseLayout head body)
        ++ .of [.dedent, .line "\x7d"]
    | _ => .concat (cases.map (·.2))

def handlerItem (head : CatchHead) : Item :=
  let block := m.graph.block head.block
  let type := head.exception.getD (.object Ty.throwableClass)
  let caught := block.insns.find? fun i => match i.op with
    | .moveException _ => true
    | _ => false
  .handler block.firstOffset type (((caught.bind (·.result)).bind (·.var)).elim (.block head.block type) .var)

def guardedLayout (body : Layout) (catches : List (CatchHead × Layout)) : Layout :=
  .of [.line "try \x7b"] ++ .block body
    ++ .concat (catches.map fun (head, body) => .of [m.handlerItem head] ++ .block body)
    ++ .of [.line "\x7d"]

def jumpItem (verb : String) (target : Option Nat) : Item :=
  .line (verb ++ (target.elim "" fun b => " " ++ m.labelOf b) ++ ";")

variable (hasDecls : Nat → Bool)

mutual

/-- The layout of a region. `chained` is set for a comparison that follows an `else`. -/
def layout (chained : Bool) : Region → Layout
  | .seq items => layoutAll items
  | .block b => .of (m.blockItems b)
  | .raw b => .of (m.rawItems b)
  | .branch header negated thenPart none =>
    m.branchLayout hasDecls chained header negated ⟨m.isSilent thenPart, .lazily fun _ => layout false thenPart, none⟩ none
  | .branch header negated thenPart (some elsePart) =>
    let next := match elsePart with
      | .branch inner .. => if m.isBareComparison inner then some (.lazily fun _ => layout true elsePart) else none
      | _ => none
    m.branchLayout hasDecls chained header negated ⟨m.isSilent thenPart, .lazily fun _ => layout false thenPart, none⟩
      (some ⟨m.isSilent elsePart, .lazily fun _ => layout false elsePart, next⟩)
  | .loop kind header cond negated body => m.loopLayout kind header cond negated (layout false body)
  | .switch header cases => m.switchLayout header (layoutCases cases)
  | .guarded body catches => m.guardedLayout (layout false body) (layoutCatches catches)
  | .brk target => .of [m.jumpItem "break" target]
  | .cont target => .of [m.jumpItem "continue" target]
  | .goto target => .of [m.jumpItem "goto" (some target)]

def layoutAll : List Region → Layout
  | [] => .of []
  | r :: rest => layout false r ++ layoutAll rest

def layoutCases : List (CaseHead × Region) → List (CaseHead × Layout)
  | [] => []
  | (head, r) :: rest => (head, layout false r) :: layoutCases rest

def layoutCatches : List (CatchHead × Region) → List (CatchHead × Layout)
  | [] => []
  | (head, r) :: rest => (head, layout false r) :: layoutCatches rest

end

def items : List Item := ((Layout.inScope (m.layout hasDecls false m.tree.root)).run 0).1

end Lifted

end JavaLift.Source
