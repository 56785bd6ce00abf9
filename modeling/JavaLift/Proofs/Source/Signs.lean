import JavaLift.Source.Method
import Mathlib

namespace JavaLift.Source

/-- A name that is declared, and the variable that it is for. The name of a parameter or of an exception that
nothing reads is for none. -/
structure Identifier where
  var : Option Nat
  name : String
deriving DecidableEq

/-- A part of the text. A name is declared in the block around it, or bound for the block that opens next. -/
inductive Sign where
  | text (s : String)
  | opens
  | closes
  | declares (i : Identifier)
  | binds (i : Identifier)
  | occurs (v : Nat) (name : String)
deriving DecidableEq

def Sign.spelled : Sign → String
  | .text s => s
  | .opens => "\x7b"
  | .closes => "\x7d"
  | .declares i | .binds i => i.name
  | .occurs _ name => name

@[simp] theorem spelled_text (s : String) : (Sign.text s).spelled = s := rfl

@[simp] theorem spelled_opens : Sign.opens.spelled = "\x7b" := rfl

@[simp] theorem spelled_closes : Sign.closes.spelled = "\x7d" := rfl

@[simp] theorem spelled_declares (i : Identifier) : (Sign.declares i).spelled = i.name := rfl

@[simp] theorem spelled_binds (i : Identifier) : (Sign.binds i).spelled = i.name := rfl

@[simp] theorem spelled_occurs (v : Nat) (name : String) : (Sign.occurs v name).spelled = name := rfl

def spell (signs : List Sign) : String := String.join (signs.map Sign.spelled)

@[simp] theorem spell_nil : spell [] = "" := rfl

@[simp] theorem spell_cons (x : Sign) (signs : List Sign) : spell (x :: signs) = x.spelled ++ spell signs := by
  simp [spell, String.join_cons]

@[simp] theorem spell_append (xs ys : List Sign) : spell (xs ++ ys) = spell xs ++ spell ys := by
  simp [spell, String.join_append]

def written {α : Type} (signs : Draft → α → List Sign) (next : Draft → α → Draft) : Draft → List α → List Sign
  | _, [] => []
  | d, x :: rest => signs d x ++ written signs next (next d x) rest

def openingSigns (cs : List Char) : List Sign :=
  if cs.getLast? = some '\x7b' then [.text (.ofList cs.dropLast), .opens] else [.text (.ofList cs)]

def lineSigns (s : String) : List Sign :=
  match s.toList with
  | '\x7d' :: cs => .closes :: openingSigns cs
  | cs => openingSigns cs

namespace Phrase

def lastText? (p : Phrase) : Option String :=
  match p.pieces.getLast? with
  | some (.text s) => some s
  | _ => none

/-- The head of a block: it ends with a closing bracket and a brace. -/
def isHead (p : Phrase) : Bool := p.lastText? == some ") \x7b"

/-- The foot of a `do` loop. A statement ends in a semicolon that is a piece of its own. -/
def isFoot (p : Phrase) : Bool :=
  p.lastText? == some ");" && match p.pieces with
    | .text s :: _ => s == "\x7d while ("
    | _ => false

end Phrase

def lead (w : Writer) : String :=
  (if w.fresh then "" else "\n") ++ String.ofList (List.replicate (w.depth * w.indent) ' ')

namespace Draft

variable (m : Lifted) (style : Style) (ds : List (Nat × Declaration))

def pieceSign (d : Draft) : Piece → Sign
  | .text s => .text s
  | .name r => r.var.elim (.text r.render) fun v => .occurs v (d.namer.nameOf v)

def phraseSigns (d : Draft) (p : Phrase) : List Sign :=
  if p.isFoot then .closes :: .text " while (" :: p.pieces.tail.map d.pieceSign
  else if p.isHead then p.pieces.dropLast.map d.pieceSign ++ [.text ") ", .opens]
  else p.pieces.map d.pieceSign

def commentSigns (offset : Nat) (comment : Bool) : List Sign :=
  if comment && style.offsets then [.text (" /* " ++ Text.offset offset ++ " */")] else []

def markedSigns (d : Draft) (c : Marked) : List Sign :=
  let d := c.phrase.events.foldl (event m) d
  (if c.goesOn then [] else [.text (lead d.writer)]) ++ d.phraseSigns c.phrase ++ commentSigns style c.offset c.comment

def identifier (d : Draft) (v : Nat) : Identifier := ⟨some v, d.namer.nameOf v⟩

def declareSigns (d : Draft) (v : Nat) : List Sign :=
  [.text ((m.typeOf v).javaName ++ " "), .declares (d.identifier v)]

def assigned (d : Draft) (result : Register) (value : Phrase) : Draft :=
  let d := value.events.foldl (event m) d
  result.var.elim d fun v => { d with namer := d.namer.ensure v (m.typeOf v) }

def assignSigns (d : Draft) (head : Head) (result : Register) (value : Phrase) : List Sign :=
  let d := d.assigned m result value
  let rest : List Sign :=
    .text " = " :: value.pieces.map d.pieceSign ++ .text ";" :: commentSigns style head.offset true
  match result.var.filter (d.declaresHere ds) with
  | some v => .text (lead d.writer) :: d.declareSigns m v ++ rest
  | none =>
    if head.op == .move && d.registerName result == d.phraseText value then []
    else .text (lead d.writer) :: d.pieceSign (.name result) :: rest

def ensured (d : Draft) (v : Nat) : Draft :=
  { d with namer := d.namer.ensure v (m.typeOf v), declared := v :: d.declared }

def declareAt (d : Draft) (x : Nat × Declaration) : Draft :=
  let d := d.ensured m x.1
  { d with writer := (d.declare m x.1 d.writer.startLine).add ";" }

def declareAtSigns (d : Draft) (x : Nat × Declaration) : List Sign :=
  let d := d.ensured m x.1
  .text (lead d.writer) :: d.declareSigns m x.1 ++ [.text ";"]

def caught (d : Draft) : Catcher → Identifier
  | .var v => ⟨some v, d.namer.nameOf v⟩
  | .block b _ => ⟨none, d.namer.caughtName b⟩

def handlerSigns (d : Draft) (type : Ty) (c : Catcher) : List Sign :=
  let d := (d.catcher m c).1
  [.text (lead d.writer), .closes, .text (" catch (" ++ type.javaName ++ " "), .binds (d.caught c), .text ") ", .opens]

def itemSigns (d : Draft) : Item → List Sign
  | .line s => .text (lead d.writer) :: lineSigns s
  | .marked c => d.markedSigns m style c
  | .assign head result value => d.assignSigns m style ds head result value
  | .handler _ type c => d.handlerSigns m type c
  | .label b name => if d.labels.contains b then [] else [.text (lead d.writer), .text (name ++ ":")]
  | .openScope id => written (declareAtSigns m) (declareAt m) d (ds.filter fun x => x.2 == .scope id)
  | .indent | .dedent | .closeScope => []

end Draft

def Namer.owner? (n : Namer) (name : String) : Option Nat :=
  (n.names.find? fun p => p.2 == name && n.nameOf p.1 == name).map (·.1)

def Namer.identifier (n : Namer) (name : String) : Identifier := ⟨n.owner? name, name⟩

def paramSigns : List (Ty × Identifier) → List Sign
  | [] => []
  | (t, i) :: rest =>
    .text (t.javaName ++ " ") :: .binds i :: (if rest.isEmpty then [] else [.text ", "]) ++ paramSigns rest

def signatureSigns (w : Writer) (n : Namer) (s : Signature) (names : List String) : List Sign :=
  if s.isClassInitializer then [.text (lead w), .text "static"]
  else
    let name := if s.isConstructor then Ty.simpleClassName s.className else s.name
    let ret := if s.isConstructor then "" else s.ret.javaName ++ " "
    [.text (lead w), .text (modifiers s.access ++ ret ++ name ++ "(")]
      ++ paramSigns ((s.params.zip names).map fun p => (p.1, n.identifier p.2)) ++ [.text ")"]

namespace Lifted

variable (m : Lifted) (style : Style)

def survey : Survey := Survey.of m (m.items fun _ => false)

def writtenItems : List Item := m.items (hasDeclarations m.survey.declarations)

def firstDraft : Draft :=
  ⟨((writeSignature style.writer m.signature (Survey.entryNames m).2).add " \x7b").deeper, m.survey.namer, [], [], []⟩

def lastDraft : Draft := m.writtenItems.foldl (Draft.item m style m.survey.declarations) (m.firstDraft style)

def headSigns : List Sign := signatureSigns style.writer m.survey.namer m.signature (Survey.entryNames m).2

def bodySigns : List Sign :=
  written (Draft.itemSigns m style m.survey.declarations) (Draft.item m style m.survey.declarations)
    (m.firstDraft style) m.writtenItems

def signs : List Sign :=
  m.headSigns style ++ [.text " ", .opens] ++ m.bodySigns style
    ++ [.text (lead (m.lastDraft style).writer.shallower), .closes]

theorem render_eq :
    m.render style = (((m.lastDraft style).writer.shallower.addLine "\x7d").finish, (m.lastDraft style).diagnostics) :=
  rfl

end Lifted

/-- Past the beginning of the text, the only way to write is to go on. -/
structure Writes (w w' : Writer) (s : String) : Prop where
  code : w'.code = w.code ++ s
  fresh : w'.fresh = false

namespace Writes

variable {w w' w'' : Writer} {s t : String}

theorem trans (h : Writes w w' s) (h' : Writes w' w'' t) : Writes w w'' (s ++ t) :=
  ⟨by rw [h'.code, h.code, String.append_assoc], h'.fresh⟩

theorem refl (h : w.fresh = false) : Writes w w "" := ⟨by simp, h⟩

theorem startLine (w : Writer) : Writes w w.startLine (lead w) := by
  refine ⟨?_, rfl⟩
  unfold Writer.startLine lead
  cases w.fresh <;> simp [Writer.push, Writer.newline, String.append_assoc]

theorem ready (h : w.fresh = false) (s : String) : w.ready s = w := by simp [Writer.ready, h]

theorem add (h : w.fresh = false) (s : String) : Writes w (w.add s) s := by
  rw [Writer.add, ready h]
  exact ⟨rfl, h⟩

@[simp] theorem code_record (w : Writer) : w.record.code = w.code := rfl

@[simp] theorem fresh_record (w : Writer) : w.record.fresh = w.fresh := rfl

theorem begin (h : w.fresh = false) (a : Mark) : Writes w (w.begin a) "" := ⟨by simp [Writer.begin], h⟩

theorem close (h : w.fresh = false) : Writes w w.close "" := ⟨by simp [Writer.close], h⟩

theorem addMarked (h : w.fresh = false) (s : String) (a : Mark) : Writes w (w.addMarked s a) s := by
  rw [Writer.addMarked, ready h]
  exact ⟨by simp [Writer.close, Writer.begin, Writer.push], h⟩

theorem addLine (w : Writer) (s : String) : Writes w (w.addLine s) (lead w ++ s) :=
  (startLine w).trans (t := s) ⟨rfl, rfl⟩

theorem attach (h : w.fresh = false) (source : Option Nat) : Writes w (Draft.attach source w) "" := by
  cases source with
  | none => exact refl h
  | some line => exact ⟨by simp [Draft.attach, Writer.attachSource], h⟩

theorem code_finish (w : Writer) : w.finish.code = w.code := by
  have hclose : ∀ (marks : List Mark) (w : Writer), (marks.foldl (fun w _ => w.close) w).code = w.code := by
    intro marks
    induction marks with
    | nil => exact fun _ => rfl
    | cons _ marks ih => exact fun w => (ih _).trans rfl
  exact hclose _ w

end Writes

theorem spell_openingSigns (cs : List Char) : spell (openingSigns cs) = String.ofList cs := by
  unfold openingSigns
  split_ifs with h
  · have hlast := List.dropLast_append_getLast? '\x7b' h
    nth_rewrite 2 [← hlast]
    rw [String.ofList_append]
    simp
  · simp

theorem spell_lineSigns (s : String) : spell (lineSigns s) = s := by
  unfold lineSigns
  split
  next cs h =>
    rw [spell_cons, spell_openingSigns, ← String.ofList_toList (s := s), h, ← List.singleton_append,
      String.ofList_append]
    rfl
  next cs h => rw [spell_openingSigns, String.ofList_toList]

theorem lastText?_eq {p : Phrase} {s : String} (h : p.lastText? = some s) : p.pieces.getLast? = some (.text s) := by
  unfold Phrase.lastText? at h
  split at h
  next t ht =>
    cases h
    exact ht
  next => cases h

theorem writes_written {α : Type} {signs : Draft → α → List Sign} {next : Draft → α → Draft}
    (hstep : ∀ d x, d.writer.fresh = false → Writes d.writer (next d x).writer (spell (signs d x)))
    (xs : List α) (d : Draft) (h : d.writer.fresh = false) :
    Writes d.writer (xs.foldl next d).writer (spell (written signs next d xs)) := by
  induction xs generalizing d with
  | nil => exact .refl h
  | cons x xs ih =>
      have hx := hstep d x h
      rw [written, spell_append]
      exact hx.trans (ih _ hx.fresh)

namespace Draft

variable (m : Lifted) (style : Style) (ds : List (Nat × Declaration))

theorem spelled_pieceSign (d : Draft) (r : Register) : (d.pieceSign (.name r)).spelled = d.registerName r := by
  rw [pieceSign, registerName]
  cases r.var <;> rfl

theorem spell_pieces (d : Draft) (p : Phrase) : spell (p.pieces.map d.pieceSign) = d.phraseText p := by
  unfold phraseText spell
  rw [List.map_map]
  congr 1
  refine List.map_congr_left fun x _ => ?_
  cases x with
  | text s => rfl
  | name r => exact d.spelled_pieceSign r

theorem spell_phraseSigns (d : Draft) (p : Phrase) : spell (d.phraseSigns p) = d.phraseText p := by
  rw [← spell_pieces]
  unfold phraseSigns
  split_ifs with hfoot hhead
  · obtain ⟨-, hfirst⟩ := Bool.and_eq_true_iff.mp hfoot
    split at hfirst
    next s rest hpieces =>
      rw [hpieces, eq_of_beq hfirst]
      simp only [List.tail_cons, List.map_cons, spell_cons, ← String.append_assoc]
      rfl
    next => cases hfirst
  · have hlast := List.dropLast_append_getLast? _ (lastText?_eq (eq_of_beq hhead))
    nth_rewrite 2 [← hlast]
    rw [List.map_append, spell_append, spell_append]
    rfl
  · rfl

@[simp] theorem writer_event (d : Draft) (e : Event) : (event m d e).writer = d.writer := by
  have hremark (r : Diagnostic) : (d.remark r).writer = d.writer := by
    unfold remark
    split_ifs <;> rfl
  cases e with
  | read r =>
      rw [event]
      split
      next => rfl
      next => exact hremark _
  | remark r => exact hremark r

@[simp] theorem writer_events (d : Draft) (es : List Event) : (es.foldl (event m) d).writer = d.writer := by
  induction es generalizing d with
  | nil => rfl
  | cons e es ih => rw [List.foldl_cons, ih, writer_event]

@[simp] theorem writer_assigned (d : Draft) (result : Register) (value : Phrase) :
    (d.assigned m result value).writer = d.writer := by
  unfold assigned
  cases result.var <;> simp

variable {w w' : Writer} {s : String}

theorem writes_underMark (offset : Nat) (comment : Bool) {write : Writer → Writer} (h : w.fresh = false)
    (hwrite : ∀ w, w.fresh = false → Writes w (write w) s) :
    Writes w (underMark style offset comment write w) (s ++ spell (commentSigns style offset comment)) := by
  have hbegin := Writes.begin h (.offset offset)
  have htext := hbegin.trans (hwrite _ hbegin.fresh)
  unfold underMark commentSigns
  split_ifs with hcomment
  · have hall := htext.trans (.add htext.fresh (" /* " ++ Text.offset offset ++ " */"))
    simpa  using hall.trans (.close hall.fresh)
  · simpa using htext.trans (.close htext.fresh)

theorem writes_declare (d : Draft) (v : Nat) (h : w.fresh = false) :
    Writes w (d.declare m v w) (spell (d.declareSigns m v)) := by
  have htype := Writes.add h ((m.typeOf v).javaName ++ " ")
  simpa [declare, declareSigns, identifier] using htype.trans (.addMarked htype.fresh _ _)

theorem writes_marked (d : Draft) (c : Marked) (h : d.writer.fresh = false) :
    Writes d.writer (d.marked m style c).writer (spell (d.markedSigns m style c)) := by
  have hlead : Writes d.writer (if c.goesOn then d.writer else d.writer.startLine)
      (spell (if c.goesOn then [] else [.text (lead d.writer)])) := by
    split_ifs
    · exact .refl h
    · simpa  using Writes.startLine d.writer
  have hattach := hlead.trans (.attach hlead.fresh c.source)
  have hall := hattach.trans (writes_underMark style c.offset c.comment hattach.fresh fun w hw =>
    .add hw ((c.phrase.events.foldl (event m) d).phraseText c.phrase))
  simpa [marked, markedSigns, spell_phraseSigns, String.append_assoc] using hall

theorem assign_eq (d : Draft) (head : Head) (result : Register) (value : Phrase) :
    d.assign m style ds head result value =
      match result.var.filter ((d.assigned m result value).declaresHere ds) with
      | some v => { d.assigned m result value with
          writer := underMark style head.offset true (fun w => ((d.assigned m result value).declare m v w).add
            (" = " ++ (d.assigned m result value).phraseText value ++ ";"))
            (attach head.line (d.assigned m result value).writer.startLine)
          declared := v :: (d.assigned m result value).declared }
      | none =>
        if head.op == .move && (d.assigned m result value).registerName result ==
          (d.assigned m result value).phraseText value then d.assigned m result value
        else { d.assigned m result value with
          writer := underMark style head.offset true (fun w => (w.add ((d.assigned m result value).registerName
            result)).add (" = " ++ (d.assigned m result value).phraseText value ++ ";"))
            (attach head.line (d.assigned m result value).writer.startLine) } := rfl

theorem writes_assign (d : Draft) (head : Head) (result : Register) (value : Phrase) (h : d.writer.fresh = false) :
    Writes d.writer (d.assign m style ds head result value).writer
      (spell (d.assignSigns m style ds head result value)) := by
  have hline := (Writes.startLine d.writer).trans (.attach rfl head.line)
  have hwrite {left : Writer → Writer} {s : String} (hleft : ∀ w, w.fresh = false → Writes w (left w) s) :=
    hline.trans (writes_underMark style head.offset true hline.fresh fun w hw =>
      (hleft w hw).trans (.add (hleft w hw).fresh (" = " ++ (d.assigned m result value).phraseText value ++ ";")))
  rw [assign_eq, assignSigns]
  split
  next v hv =>
    simpa [spell_pieces, String.append_assoc] using hwrite fun w hw =>
      writes_declare m (d.assigned m result value) v hw
  next =>
    split_ifs
    · simpa using Writes.refl h
    · simpa [spell_pieces, spelled_pieceSign, String.append_assoc] using hwrite fun w hw =>
        Writes.add hw ((d.assigned m result value).registerName result)

theorem writes_declareAt (d : Draft) (x : Nat × Declaration) :
    Writes d.writer (declareAt m d x).writer (spell (declareAtSigns m d x)) := by
  have hdeclare := (Writes.startLine d.writer).trans (writes_declare m (d.ensured m x.1) x.1 rfl)
  simpa [declareAt, declareAtSigns, ensured, String.append_assoc] using
    hdeclare.trans (.add hdeclare.fresh ";")

theorem openScope_eq (d : Draft) (id : Nat) :
    d.openScope m ds id = (ds.filter fun x => x.2 == .scope id).foldl (declareAt m) d := rfl

theorem catcher_eq (d : Draft) (c : Catcher) : d.catcher m c = ((d.catcher m c).1, ((d.catcher m c).1.caught c).name) := by
  cases c <;> rfl

@[simp] theorem writer_catcher (d : Draft) (c : Catcher) : (d.catcher m c).1.writer = d.writer := by
  cases c <;> rfl

theorem writes_handler (d : Draft) (offset : Nat) (type : Ty) (c : Catcher) :
    Writes d.writer (d.handler m style offset type c).writer (spell (d.handlerSigns m type c)) := by
  have hline := Writes.startLine d.writer
  have hall := hline.trans (writes_underMark style offset false hline.fresh fun w hw => by
    have hhead := Writes.add hw ("\x7d catch (" ++ type.javaName ++ " ")
    have hname := hhead.trans (.addMarked hhead.fresh ((d.catcher m c).1.caught c).name
      (.declaration .variable ((d.catcher m c).1.caught c).name))
    exact hname.trans (.add hname.fresh ") \x7b"))
  rw [handler, catcher_eq]
  have hbrace (s : String) : "\x7d" ++ (" catch (" ++ s) = "\x7d catch (" ++ s := by
    rw [← String.append_assoc]
    rfl
  simpa [handlerSigns, commentSigns, hbrace, String.append_assoc] using hall

theorem writes_item (d : Draft) (x : Item) (h : d.writer.fresh = false) :
    Writes d.writer (d.item m style ds x).writer (spell (d.itemSigns m style ds x)) := by
  cases x with
  | line s => simpa [item, itemSigns, spell_lineSigns] using Writes.addLine d.writer s
  | marked c => exact writes_marked m style d c h
  | assign head result value => exact writes_assign m style ds d head result value h
  | handler offset type c => exact writes_handler m style d offset type c
  | label b name =>
      simp only [item, label, itemSigns]
      split_ifs
      · exact .refl h
      · simpa [String.append_assoc] using Writes.addLine d.writer (name ++ ":")
  | indent | dedent | closeScope => exact ⟨by simp [item, itemSigns, Writer.deeper, Writer.shallower], h⟩
  | openScope id => exact writes_written (fun d x _ => writes_declareAt m d x) _ d h

end Draft

theorem writes_params (w : Writer) (h : w.fresh = false) (n : Namer) (params : List (Ty × String)) :
    Writes w (writeParams w params) (spell (paramSigns (params.map fun p => (p.1, n.identifier p.2)))) := by
  induction params generalizing w with
  | nil => exact .refl h
  | cons p rest ih =>
      obtain ⟨t, name⟩ := p
      have htype := Writes.add h (t.javaName ++ " ")
      have hname := htype.trans (.addMarked htype.fresh name (.declaration .parameter name))
      rw [writeParams, List.map_cons, paramSigns]
      cases rest with
      | nil => simpa [Namer.identifier, paramSigns, writeParams, String.append_assoc] using hname
      | cons q rest =>
          have hcomma := hname.trans (.add hname.fresh ", ")
          simpa [Namer.identifier, String.append_assoc] using hcomma.trans (ih _ hcomma.fresh)

theorem writes_signature (w : Writer) (n : Namer) (s : Signature) (names : List String) :
    Writes w (writeSignature w s names) (spell (signatureSigns w n s names)) := by
  have hline := Writes.startLine w
  unfold writeSignature signatureSigns
  split_ifs with hinit hconstructor
  · simpa  using hline.trans (.add hline.fresh "static")
  · have hmodifiers := hline.trans (.add hline.fresh (modifiers s.access))
    have hname := hmodifiers.trans (.addMarked hmodifiers.fresh (Ty.simpleClassName s.className)
      (.declaration .method (Ty.simpleClassName s.className)))
    have hopen := hname.trans (.add hname.fresh "(")
    have hparams := hopen.trans (writes_params _ hopen.fresh n (s.params.zip names))
    simpa [String.append_assoc, hconstructor] using
      hparams.trans (.add hparams.fresh ")")
  · have hmodifiers := hline.trans (.add hline.fresh (modifiers s.access))
    have hret := hmodifiers.trans (.add hmodifiers.fresh (s.ret.javaName ++ " "))
    have hname := hret.trans (.addMarked hret.fresh s.name (.declaration .method s.name))
    have hopen := hname.trans (.add hname.fresh "(")
    have hparams := hopen.trans (writes_params _ hopen.fresh n (s.params.zip names))
    simpa [String.append_assoc, hconstructor] using
      hparams.trans (.add hparams.fresh ")")

theorem spell_signs (m : Lifted) (style : Style) : spell (m.signs style) = (m.render style).1.code := by
  have hhead := writes_signature style.writer m.survey.namer m.signature (Survey.entryNames m).2
  have hopen := hhead.trans (.add hhead.fresh " \x7b")
  have hdeeper : Writes style.writer (m.firstDraft style).writer _ := ⟨hopen.code, hopen.fresh⟩
  have hbody := hdeeper.trans (writes_written (Draft.writes_item m style m.survey.declarations) m.writtenItems
    (m.firstDraft style) hdeeper.fresh)
  have hlast : Writes style.writer (m.lastDraft style).writer.shallower _ := ⟨hbody.code, hbody.fresh⟩
  have hall := hlast.trans (.addLine (m.lastDraft style).writer.shallower "\x7d")
  rw [m.render_eq, Writes.code_finish, hall.code, show style.writer.code = "" from rfl, String.empty_append]
  simp [Lifted.signs, Lifted.headSigns, Lifted.bodySigns, String.append_assoc]
  rfl

end JavaLift.Source
