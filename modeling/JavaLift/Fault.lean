import JavaLift.Text.Hex

namespace JavaLift

inductive RefKind where
  | string | type | field | method | cls | constant
deriving DecidableEq

def RefKind.name : RefKind → String
  | .string => "string"
  | .type => "type"
  | .field => "field"
  | .method => "method"
  | .cls => "class"
  | .constant => "constant"

inductive PayloadDefect where
  | unknownIdent (ident : Nat)
  | outOfRange (distance : Int)
  | truncatedSwitch
  | noSwitch
  | truncatedArray
  | noArray
  | elementWidth
  | tableRange (low high : Int)
  | pairCount (count : Int)
deriving DecidableEq

def PayloadDefect.message : PayloadDefect → String
  | .unknownIdent ident => "unknown payload ident " ++ Text.offset ident
  | .outOfRange distance => "payload offset " ++ toString distance ++ " out of range"
  | .truncatedSwitch => "truncated switch payload"
  | .noSwitch => "expected switch payload"
  | .truncatedArray => "truncated array payload"
  | .noArray => "expected fill-array-data payload"
  | .elementWidth => "invalid element width"
  | .tableRange low high => "tableswitch range " ++ toString low ++ ".." ++ toString high
  | .pairCount count => "lookupswitch with " ++ toString count ++ " pairs"

inductive Malformation where
  | loneMoveResult
  | branchLeaves (distance : Int)
  | invokeRegisters (count : Nat)
  | argumentRegisters (needed available : Nat)
  | argumentLocals (needed available : Nat)
  | tryRange (first last : Nat)
  | handlerOutside (target : Nat)
  | registerOverflow
  | noBoundary (target : Nat)
  | fallsOffEnd
  | stackShape
  | localRange
  | stackOverflow
  | stackUnderflow
  | categoryMismatch
  | splitsWide
  | elementType
deriving DecidableEq

def Malformation.message : Malformation → String
  | .loneMoveResult => "move-result without preceding invoke"
  | .branchLeaves distance => "branch offset " ++ toString distance ++ " leaves the method"
  | .invokeRegisters count => "invoke with " ++ toString count ++ " registers"
  | .argumentRegisters needed available =>
    "method needs " ++ toString needed ++ " argument registers but has " ++ toString available
  | .argumentLocals needed available =>
    "method needs " ++ toString needed ++ " locals but max_locals is " ++ toString available
  | .tryRange first last => "invalid try range " ++ Text.offset first ++ ".." ++ Text.offset last
  | .handlerOutside target => "handler " ++ Text.offset target ++ " outside the method"
  | .registerOverflow => "register count overflow"
  | .noBoundary target => "branch target " ++ Text.offset target ++ " is not an instruction boundary"
  | .fallsOffEnd => "execution falls off the end of the code"
  | .stackShape => "inconsistent stack shape at merge point"
  | .localRange => "local variable index out of range"
  | .stackOverflow => "operand stack overflow"
  | .stackUnderflow => "operand stack underflow"
  | .categoryMismatch => "operand category mismatch"
  | .splitsWide => "pop2 splits a wide value"
  | .elementType => "bad newarray element type"

inductive DecodeFault where
  | truncated (offset : Nat)
  | unknownOpcode (opcode offset : Nat)
  | operandMismatch (offset expected found : Nat)
  | badReference (kind : RefKind) (index offset : Nat)
  | badPayload (offset : Nat) (defect : PayloadDefect)
  | malformed (offset : Nat) (cause : Malformation)
deriving DecidableEq

def DecodeFault.message : DecodeFault → String
  | .truncated offset => "truncated bytecode at offset " ++ Text.offset offset
  | .unknownOpcode opcode offset => "unknown opcode 0x" ++ Text.hex 2 opcode ++ " at offset " ++ Text.offset offset
  | .operandMismatch offset expected found =>
    "operand count mismatch at " ++ Text.offset offset ++ ": expected " ++ toString expected ++ ", found "
      ++ toString found
  | .badReference kind index offset =>
    "bad " ++ kind.name ++ " reference #" ++ toString index ++ " at " ++ Text.offset offset
  | .badPayload offset defect => "bad payload at " ++ Text.offset offset ++ ": " ++ defect.message
  | .malformed offset cause => "malformed bytecode at " ++ Text.offset offset ++ ": " ++ cause.message

/-- A step of the decompiler was given something that the steps before it never leave. -/
inductive Inconsistency where
  | noInstructions
  | targetOutside (target source : Nat)
  | targetInside (target source : Nat)
  | noBlock (target : Nat)
  | branchFallsOff (offset : Nat)
  | switchFallsOff (offset : Nat)
  | executionFallsOff (offset : Nat)
  | inlinePositions (definition use size : Nat)
  | alreadyWrapped (position : Nat)
  | noWrapTarget (position : Nat)
  | noRegister (path : List String) (position : Nat)
deriving DecidableEq

def Inconsistency.message : Inconsistency → String
  | .noInstructions => "method body has no instructions"
  | .targetOutside target source =>
    "branch target " ++ Text.offset target ++ " at " ++ Text.offset source ++ " outside method"
  | .targetInside target source =>
    "branch target " ++ Text.offset target ++ " at " ++ Text.offset source ++ " is not an instruction boundary"
  | .noBlock target => "no block starts at " ++ Text.offset target
  | .branchFallsOff offset => "conditional branch at " ++ Text.offset offset ++ " falls off the end"
  | .switchFallsOff offset => "switch at " ++ Text.offset offset ++ " falls off the end"
  | .executionFallsOff offset => "execution falls off the end at " ++ Text.offset offset
  | .inlinePositions definition use size =>
    "invalid inline positions: " ++ toString definition ++ " -> " ++ toString use ++ " (block size "
      ++ toString size ++ ")"
  | .alreadyWrapped position => "instruction at " ++ toString position ++ " already wrapped"
  | .noWrapTarget position => "wrap target " ++ toString position ++ " missing"
  | .noRegister path position =>
    "no register at [" ++ ", ".intercalate path ++ "] in instruction " ++ toString position

/-- The place in the decompiler's code that a report of an inconsistency gives. -/
def Inconsistency.place : Inconsistency → String
  | .noInstructions => "src/decompiler/cfg.rs:114"
  | .targetOutside .. => "src/decompiler/cfg.rs:124"
  | .targetInside .. => "src/decompiler/cfg.rs:131"
  | .noBlock _ => "src/decompiler/cfg.rs:189"
  | .branchFallsOff _ => "src/decompiler/cfg.rs:209"
  | .switchFallsOff _ => "src/decompiler/cfg.rs:223"
  | .executionFallsOff _ => "src/decompiler/cfg.rs:236"
  | .inlinePositions .. => "src/decompiler/shrink.rs:73"
  | .alreadyWrapped _ => "src/decompiler/shrink.rs:254"
  | .noWrapTarget _ => "src/decompiler/shrink.rs:258"
  | .noRegister .. => "src/decompiler/shrink.rs:262"

inductive Failure where
  | decode (fault : DecodeFault)
  | inconsistent (cause : Inconsistency)
  | cancelled
deriving DecidableEq

def Failure.message : Failure → String
  | .decode fault => "decode error: " ++ fault.message
  | .inconsistent cause => "inconsistency - " ++ cause.place ++ ": " ++ cause.message
  | .cancelled => "decompilation cancelled"

inductive DiagnosticKind where
  | typeConflict | structuringFallback | inlinePassLimit | typeIterationLimit | undefinedRegister
  | unfoldedConstructor
deriving DecidableEq

def DiagnosticKind.label : DiagnosticKind → String
  | .typeConflict => "TypeConflict"
  | .structuringFallback => "StructuringFallback"
  | .inlinePassLimit => "InlinePassLimit"
  | .typeIterationLimit => "TypeIterationLimit"
  | .undefinedRegister => "UndefinedRegister"
  | .unfoldedConstructor => "UnfoldedConstructor"

def DiagnosticKind.key : DiagnosticKind → String
  | .typeConflict => "type_conflict"
  | .structuringFallback => "structuring_fallback"
  | .inlinePassLimit => "inline_pass_limit"
  | .typeIterationLimit => "type_iteration_limit"
  | .undefinedRegister => "undefined_register"
  | .unfoldedConstructor => "unfolded_constructor"

structure Diagnostic where
  kind : DiagnosticKind
  message : String
deriving DecidableEq

def Diagnostic.render (d : Diagnostic) : String := d.kind.label ++ ": " ++ d.message

end JavaLift
