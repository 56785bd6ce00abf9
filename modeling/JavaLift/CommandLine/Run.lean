import JavaLift.CommandLine.Invocation
import JavaLift.Decompile.Class
import JavaLift.Dump.Reader
import JavaLift.Json.Printer
import JavaLift.Json.Reader

namespace JavaLift.CommandLine

inductive Effect where
  | print (text : String)
  | write (path text : String)

inductive RunFault where
  | unreadableOptions (path : String)
  | invalidOptions (path : String)
  | unreadableDump (path : String)
  | invalidDump (path : String)
  | dump (fault : DumpFault)
  | cancelled (className : String)
  | unwritable (path : String)

namespace RunFault

def message : RunFault → String
  | .unreadableOptions path => "Failed to read options " ++ path
  | .invalidOptions path => "Invalid options " ++ path
  | .unreadableDump path => "Failed to read class dump " ++ path
  | .invalidDump path => "Failed to parse class dump " ++ path
  | .dump fault => fault.headline
  | .cancelled className => "Failed to decompile " ++ className
  | .unwritable path => "Failed to write " ++ path

/-- The run breaks off without a message. -/
def isFatal : RunFault → Bool
  | .dump fault => fault.isFatal
  | _ => false

def line (f : RunFault) : String := "Error: " ++ f.message

def exitCode (f : RunFault) : Nat := if f.isFatal then 101 else 1

end RunFault

def usageExitCode : Nat := 2

abbrev Files := String → Option String

namespace Invocation

def inputs (i : Invocation) : List String :=
  i.settings.toList ++ match i.action with
    | .decompile input .. | .disassemble input _ => [input]
    | .showOptions => []

def options (i : Invocation) (files : Files) : Except RunFault Options :=
  match i.settings with
  | none => .ok .default
  | some path => match files path with
    | none => .error (.unreadableOptions path)
    | some text => match (Json.parse? text).bind Options.ofJson? with
      | some o => .ok o
      | none => .error (.invalidOptions path)

def classes (files : Files) (path : String) : Except RunFault (List ClassDump × List ClassInput) := do
  let some text := files path | throw (.unreadableDump path)
  let some dumps := ClassDump.parse? text | throw (.invalidDump path)
  let classes ← (ClassDump.toClasses dumps).mapError .dump
  return (dumps, classes)

def sourceText (results : List ClassResult) : String := "\n\n".intercalate (results.map (·.text.code)) ++ "\n"

def decompile (files : Files) (o : Options) (input : String) (output metadata : Option String) :
    Except RunFault (List Effect) := do
  let (dumps, classes) ← classes files input
  let results := classes.map (Decompiler.ofDumps o dumps).cls
  let source := sourceText results
  let report := (Json.ofList ClassResult.toJson results).pretty 0
  return output.elim (.print source) (fun path => .write path source)
    :: (metadata.toList.map fun path => .write path report)

def listing (c : ClassInput) (m : MethodInput) (code : RawCode) : List String :=
  [c.name ++ "." ++ m.signature.name ++ m.signature.descriptor ++ ":"]
    ++ (code.listing c.pool).map ("    " ++ ·) ++ [""]

def listings (name : Option String) (c : ClassInput) : List String :=
  c.methods.flatMap fun m =>
    if name.all (· == m.signature.name) then m.code.elim [] (listing c m) else []

def disassemble (files : Files) (input : String) (name : Option String) : Except RunFault (List Effect) := do
  let (_, classes) ← classes files input
  return [.print (String.join ((classes.flatMap (listings name)).map (· ++ "\n")))]

def effects (i : Invocation) (files : Files) : Except RunFault (List Effect) := do
  let o ← i.options files
  match i.action with
  | .decompile input output metadata overrides => decompile files (overrides.apply o) input output metadata
  | .disassemble input name => disassemble files input name
  | .showOptions => return [.print (o.toJson.pretty 0 ++ "\n")]

end Invocation

end JavaLift.CommandLine
