import JavaLift.CommandLine.Arguments
import JavaLift.Options

namespace JavaLift.CommandLine

/-- The flags of a run that come after those of a file of settings. -/
structure Overrides where
  threads : Option Nat
  emitOffsets : Bool
  noTernary : Bool
  noRawFallback : Bool

def Overrides.apply (f : Overrides) (o : Options) : Options :=
  { o with
    threads := f.threads <|> o.threads
    emitOffsets := o.emitOffsets || f.emitOffsets
    foldTernaries := o.foldTernaries && !f.noTernary
    rawFallback := o.rawFallback && !f.noRawFallback }

inductive Action where
  | decompile (input : String) (output metadata : Option String) (overrides : Overrides)
  | disassemble (input : String) (method : Option String)
  | showOptions

structure Invocation where
  settings : Option String
  action : Action

namespace Invocation

def flag (long : String) : OptionSpec := ⟨long, none, .flag⟩

def programSpec : CommandSpec :=
  ⟨.command, [⟨"config", some 'c', .valued .path⟩, ⟨"verbose", some 'v', .counted⟩,
    ⟨"log-level", none, .valued .text⟩]⟩

def decompileSpec : CommandSpec :=
  ⟨.path, [⟨"output", some 'o', .valued .path⟩, ⟨"metadata", some 'm', .valued .path⟩,
    ⟨"threads", some 't', .valued .count⟩, flag "emit-offsets", flag "no-ternary", flag "no-raw-fallback"]⟩

def disassembleSpec : CommandSpec := ⟨.path, [⟨"method", none, .valued .text⟩]⟩

def showOptionsSpec : CommandSpec := ⟨.nothing, []⟩

def decompile? (words : List String) : Option Action := do
  let a ← Arguments.read? decompileSpec words
  return .decompile (← a.words.head?) (a.value? "output") (a.value? "metadata")
    ⟨(a.value? "threads").bind count?, a.has "emit-offsets", a.has "no-ternary", a.has "no-raw-fallback"⟩

def disassemble? (words : List String) : Option Action := do
  let a ← Arguments.read? disassembleSpec words
  return .disassemble (← a.words.head?) (a.value? "method")

def showOptions? (words : List String) : Option Action :=
  (Arguments.read? showOptionsSpec words).map fun _ => .showOptions

def ofArgs? (args : List String) : Option Invocation := do
  let a ← Arguments.read? programSpec args
  let action ← match a.rest with
    | "decompile" :: words => decompile? words
    | "disasm" :: words => disassemble? words
    | "config" :: words => showOptions? words
    | _ => none
  return ⟨a.value? "config", action⟩

end Invocation

end JavaLift.CommandLine
