import JavaLift.Decompile.Method
import JavaLift.Dump.Convert

namespace JavaLift

structure MethodSummary where
  key : String
  start : Nat
  stop : Nat
  diagnostics : List Diagnostic
  failure : Option Failure
  stats : Stats

structure ClassResult where
  name : String
  text : CodeText
  methods : List MethodSummary

namespace ClassResult

def fallbacks (r : ClassResult) : Nat := (r.methods.filter fun m => m.failure.isSome).length

end ClassResult

/-- What comes before the first place at which a text is found in another one, and what comes after it. -/
def splitFirst? (pattern : List Char) : List Char → Option (List Char × List Char)
  | [] => if pattern.isEmpty then some ([], []) else none
  | c :: rest => match pattern.isPrefixOf? (c :: rest) with
    | some after => some ([], after)
    | none => (splitFirst? pattern rest).map fun (before, after) => (c :: before, after)

namespace ClassInput

def head (c : ClassInput) (indent : Nat) : CodeText :=
  let header := Source.classHeader c.name c.superClass c.interfaces c.access
  let simple := Ty.simpleClassName c.name
  let w := (Writer.start indent 0).startLine
  match splitFirst? (" " ++ simple ++ " ").toList header.toList with
  | some (before, after) =>
    (((w.add (String.ofList before ++ " ")).addMarked simple (.declaration .cls c.name)).add
      (" " ++ String.ofList after)).finish
  | none => (w.add header).finish

end ClassInput

structure Assembly where
  code : String
  breaks : Nat
  metadata : Metadata
  methods : List MethodSummary

namespace Assembly

def breaksIn (text : String) : Nat := text.toList.count '\n'

def ofHead (t : CodeText) : Assembly := ⟨t.code, breaksIn t.code, t.metadata, []⟩

/-- Adds a method. All but the first one come after an empty line. -/
def add (a : Assembly) (m : MethodResult) : Assembly :=
  let gap := if a.methods.isEmpty then "\n" else "\n\n"
  let code := a.code ++ gap
  let base := code.utf8ByteSize
  let breaks := a.breaks + gap.length
  let whole := code ++ m.text.code
  { code := whole
    breaks := breaks + breaksIn m.text.code
    metadata := a.metadata.append m.text.metadata base breaks
    methods := a.methods ++ [⟨m.key, base, whole.utf8ByteSize, m.diagnostics, m.failure, m.stats⟩] }

end Assembly

namespace ClassInput

def assemble (c : ClassInput) (indent : Nat) (methods : List MethodResult) : ClassResult :=
  let a := methods.foldl Assembly.add (.ofHead (c.head indent))
  ⟨c.name, ⟨a.code ++ "\n\x7d", a.metadata⟩, a.methods⟩

end ClassInput

namespace Decompiler

def cls (d : Decompiler) (c : ClassInput) : ClassResult :=
  c.assemble d.options.indent (c.methods.map fun m => d.method m c.pool 1)

def cls? (d : Decompiler) (cancelled : Bool) (c : ClassInput) : Except Failure ClassResult :=
  if cancelled then .error .cancelled else .ok (d.cls c)

end Decompiler

def Decompiler.ofDumps (options : Options) (dumps : List ClassDump) : Decompiler :=
  ⟨.ofClasses (dumps.flatMap (·.hierarchyClasses)), options⟩

def ClassDump.toClasses (dumps : List ClassDump) : Except DumpFault (List ClassInput) := dumps.mapM ClassDump.toClass

def Diagnostic.toJson (d : Diagnostic) : Json := .obj [("kind", .str d.kind.key), ("message", .str d.message)]

def Stats.toJson (s : Stats) : Json := .obj [
  ("insns", .ofNat s.insns),
  ("blocks", .ofNat s.blocks),
  ("variables", .ofNat s.variableCount),
  ("constructors", .ofNat s.constructors),
  ("inlined", .ofNat s.inlined),
  ("inline_passes", .ofNat s.inlinePasses),
  ("ternaries", .ofNat s.ternaries),
  ("type_iterations", .ofNat s.typeSteps)]

def MethodSummary.toJson (m : MethodSummary) : Json := .obj <|
  [("key", .str m.key), ("start", .ofNat m.start), ("end", .ofNat m.stop),
    ("diagnostics", .ofList Diagnostic.toJson m.diagnostics)]
    ++ m.failure.toList.map (fun f => ("failure", .str f.message))
    ++ [("stats", m.stats.toJson)]

def ClassResult.toJson (r : ClassResult) : Json := .obj [
  ("name", .str r.name),
  ("code", .str r.text.code),
  ("metadata", r.text.metadata.toJson),
  ("methods", .ofList MethodSummary.toJson r.methods)]

end JavaLift
