import JavaLift.Json.Basic

namespace JavaLift

/-- The settings: worker threads, the most passes of inlining and the most steps of type propagation, which
folds to make, whether a failed method shows its listing, whether statements name their offsets, and the width
of an indentation step. -/
structure Options where
  threads : Option Nat
  maxInlinePasses : Nat
  maxTypeIterations : Nat
  foldTernaries : Bool
  foldConstructors : Bool
  rawFallback : Bool
  emitOffsets : Bool
  indent : Nat
deriving DecidableEq

namespace Options

def default : Options := ⟨none, 16, 10000, true, true, true, false, 4⟩

def fieldNames : List String :=
  ["threads", "max_inline_passes", "max_type_iterations", "fold_ternaries", "fold_constructors", "raw_fallback",
    "emit_offsets", "indent"]

def ofJson? (value : Json) : Option Options := do
  let r ← Json.Record.ofJson? fieldNames value
  let size := Json.unsigned? 64
  let threads ← r.fieldOr? "threads" default.threads (Json.nullable? size)
  let maxInlinePasses ← r.fieldOr? "max_inline_passes" default.maxInlinePasses size
  let maxTypeIterations ← r.fieldOr? "max_type_iterations" default.maxTypeIterations size
  let foldTernaries ← r.fieldOr? "fold_ternaries" default.foldTernaries Json.bool?
  let foldConstructors ← r.fieldOr? "fold_constructors" default.foldConstructors Json.bool?
  let rawFallback ← r.fieldOr? "raw_fallback" default.rawFallback Json.bool?
  let emitOffsets ← r.fieldOr? "emit_offsets" default.emitOffsets Json.bool?
  let indent ← r.fieldOr? "indent" default.indent size
  return ⟨threads, maxInlinePasses, maxTypeIterations, foldTernaries, foldConstructors, rawFallback, emitOffsets,
    indent⟩

def toJson (o : Options) : Json := .obj [
  ("threads", .ofOption .ofNat o.threads),
  ("max_inline_passes", .ofNat o.maxInlinePasses),
  ("max_type_iterations", .ofNat o.maxTypeIterations),
  ("fold_ternaries", .bool o.foldTernaries),
  ("fold_constructors", .bool o.foldConstructors),
  ("raw_fallback", .bool o.rawFallback),
  ("emit_offsets", .bool o.emitOffsets),
  ("indent", .ofNat o.indent)]

end Options

end JavaLift
