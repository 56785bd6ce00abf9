import JavaLift.Code.Writer
import JavaLift.Source.Declare

/-!
The text of methods and the head of a class. The layout of a method is gone through twice: once to find where its
variables are declared, and once to write it.
-/

namespace JavaLift.Source

/-- How text is laid out: the width of an indentation step, how many of them come before the outermost lines, and
whether the offsets of instructions are shown. -/
structure Style where
  indent : Nat
  depth : Nat
  offsets : Bool

namespace Style

def writer (s : Style) : Writer := .start s.indent s.depth

end Style

def modifiers (a : Access) : String :=
  let word (flag : AccessFlag) (text : String) : String := if a.has flag then text ++ " " else ""
  word .isPublic "public" ++ word .isProtected "protected" ++ word .isPrivate "private"
    ++ word .isAbstract "abstract" ++ word .isStatic "static" ++ word .isFinal "final"
    ++ word .isSynchronized "synchronized" ++ word .isNative "native"

def writeParams (w : Writer) : List (Ty × String) → Writer
  | [] => w
  | (t, name) :: rest =>
    let w := (w.add (t.javaName ++ " ")).addMarked name (.declaration .parameter name)
    writeParams (if rest.isEmpty then w else w.add ", ") rest

def writeSignature (w : Writer) (s : Signature) (names : List String) : Writer :=
  let w := w.startLine
  if s.isClassInitializer then w.add "static"
  else
    let w := w.add (modifiers s.access)
    let (w, name) :=
      if s.isConstructor then (w, Ty.simpleClassName s.className) else (w.add (s.ret.javaName ++ " "), s.name)
    (writeParams ((w.addMarked name (.declaration .method name)).add "(") (s.params.zip names)).add ")"

def paramNames (s : Signature) : List String := (Namer.start.takeAll s.params).2

def declaration (s : Signature) (style : Style) : CodeText :=
  ((writeSignature style.writer s (paramNames s)).add ";").finish

def fallback (s : Signature) (reason : String) (listing : List String) (style : Style) : CodeText :=
  let w := (writeSignature style.writer s (paramNames s)).add " \x7b"
  ((w.deeper.addFailure reason listing).shallower.addLine "\x7d").finish

def classHeader (name : String) (superClass : Option String) (interfaces : List String) (a : Access) : String :=
  let isInterface := a.has .isInterface
  let word (flag : AccessFlag) (text : String) : String := if a.has flag then text else ""
  let above := (superClass.filter fun s => s != Ty.objectClass && !isInterface).elim "" fun s =>
    " extends " ++ Ty.shortClassName s
  let listed :=
    if interfaces.isEmpty then ""
    else (if isInterface then " extends " else " implements ")
      ++ ", ".intercalate (interfaces.map Ty.shortClassName)
  word .isPublic "public " ++ (if isInterface then "" else word .isAbstract "abstract " ++ word .isFinal "final ")
    ++ (if isInterface then "interface " else "class ") ++ Ty.simpleClassName name ++ above ++ listed ++ " \x7b"

/-- A method in the making: its text so far, the names, the variables declared, the labels that stand, and remarks. -/
structure Draft where
  writer : Writer
  namer : Namer
  declared : List Nat
  labels : List Nat
  diagnostics : List Diagnostic

namespace Draft

variable (m : Lifted) (style : Style) (ds : List (Nat × Declaration))

def remark (d : Draft) (r : Diagnostic) : Draft :=
  if d.diagnostics.contains r then d else { d with diagnostics := d.diagnostics ++ [r] }

/-- A register that no definition reaches has no variable. -/
def undefinedRegister (r : Register) : Diagnostic :=
  ⟨.undefinedRegister, "register " ++ r.render ++ " is read without a reaching definition"⟩

def event (d : Draft) : Event → Draft
  | .read r => match r.var with
    | some v => { d with namer := d.namer.ensure v (m.typeOf v) }
    | none => d.remark (undefinedRegister r)
  | .remark r => d.remark r

def registerName (d : Draft) (r : Register) : String := r.var.elim r.render d.namer.nameOf

def phraseText (d : Draft) (p : Phrase) : String :=
  String.join (p.pieces.map fun
    | .text s => s
    | .name r => d.registerName r)

def underMark (offset : Nat) (comment : Bool) (write : Writer → Writer) (w : Writer) : Writer :=
  let w := write (w.begin (.offset offset))
  (if comment && style.offsets then w.add (" /* " ++ Text.offset offset ++ " */") else w).close

def attach (source : Option Nat) (w : Writer) : Writer := source.elim w w.attachSource

def declare (d : Draft) (v : Nat) (w : Writer) : Writer :=
  let name := d.namer.nameOf v
  (w.add ((m.typeOf v).javaName ++ " ")).addMarked name (.declaration .variable name)

def marked (d : Draft) (c : Marked) : Draft :=
  let d := c.phrase.events.foldl (event m) d
  let w := if c.goesOn then d.writer else d.writer.startLine
  let text := d.phraseText c.phrase
  { d with writer := underMark style c.offset c.comment (·.add text) (attach c.source w) }

def declaresHere (d : Draft) (v : Nat) : Bool :=
  ds.lookup v == some .firstAssignment && !d.declared.contains v

def assign (d : Draft) (head : Head) (result : Register) (value : Phrase) : Draft :=
  let d := value.events.foldl (event m) d
  let d := result.var.elim d fun v => { d with namer := d.namer.ensure v (m.typeOf v) }
  let text := d.phraseText value
  let target := d.registerName result
  let write (left : Writer → Writer) : Draft :=
    let line := attach head.line d.writer.startLine
    { d with writer := underMark style head.offset true (fun w => (left w).add (" = " ++ text ++ ";")) line }
  match result.var.filter (d.declaresHere ds) with
  | some v =>
    let d := write (d.declare m v)
    { d with declared := v :: d.declared }
  | none => if head.op == .move && target == text then d else write (·.add target)

def openScope (d : Draft) (id : Nat) : Draft :=
  (ds.filter fun x => x.2 == .scope id).foldl (fun d (v, _) =>
    let d := { d with namer := d.namer.ensure v (m.typeOf v), declared := v :: d.declared }
    { d with writer := (d.declare m v d.writer.startLine).add ";" }) d

def catcher (d : Draft) : Catcher → Draft × String
  | .var v =>
    let d := { d with namer := d.namer.ensure v (m.typeOf v) }
    (d, d.namer.nameOf v)
  | .block b type =>
    let d := { d with namer := d.namer.ensureCaught b type }
    (d, d.namer.caughtName b)

def handler (d : Draft) (offset : Nat) (type : Ty) (c : Catcher) : Draft :=
  let (d, name) := d.catcher m c
  let write (w : Writer) : Writer :=
    ((w.add ("\x7d catch (" ++ type.javaName ++ " ")).addMarked name (.declaration .variable name)).add ") \x7b"
  { d with writer := underMark style offset false write d.writer.startLine }

def label (d : Draft) (b : Nat) (name : String) : Draft :=
  if d.labels.contains b then d else { d with writer := d.writer.addLine (name ++ ":"), labels := b :: d.labels }

def item (d : Draft) : Item → Draft
  | .line text => { d with writer := d.writer.addLine text }
  | .marked c => d.marked m style c
  | .assign head result value => d.assign m style ds head result value
  | .handler offset type c => d.handler m style offset type c
  | .label b name => d.label b name
  | .indent => { d with writer := d.writer.deeper }
  | .dedent => { d with writer := d.writer.shallower }
  | .openScope id => d.openScope m ds id
  | .closeScope => d

end Draft

namespace Lifted

def render (m : Lifted) (style : Style) : CodeText × List Diagnostic :=
  let (_, names) := Survey.entryNames m
  let survey := Survey.of m (m.items fun _ => false)
  let ds := survey.declarations
  let w := ((writeSignature style.writer m.signature names).add " \x7b").deeper
  let d := (m.items (hasDeclarations ds)).foldl (Draft.item m style ds) ⟨w, survey.namer, [], [], []⟩
  ((d.writer.shallower.addLine "\x7d").finish, d.diagnostics)

end Lifted

end JavaLift.Source
