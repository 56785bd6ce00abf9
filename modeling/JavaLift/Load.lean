import JavaLift.ClassFile.Decoder
import JavaLift.Dalvik.Decoder

namespace JavaLift

namespace RawCode

def assignParams (first : Nat) : List Ty → List Register
  | [] => []
  | t :: rest => .typed first t :: assignParams (first + t.width) rest

def assignInputs (s : Signature) (first : Nat) : Option Nat × List Register :=
  if s.isStatic then (none, assignParams first s.params) else (some first, assignParams (first + 1) s.params)

/-- Tells the first instruction at a handler's target what it catches, unless it knows already. -/
def markHandler (h : Handler) : List Insn → List Insn
  | [] => []
  | i :: rest =>
    if i.offset = h.target then
      (match i.op, h.exception with
        | .moveException none, some t =>
          { i with op := .moveException (some t), result := i.result.map fun r => { r with type := t } }
        | _, _ => i) :: rest
    else i :: markHandler h rest

def handlers (code : RawCode) : List Handler := code.tries.flatMap (·.handlers)

def loadDalvik (code : RawCode) (s : Signature) (pool : Pool) : Except DecodeFault MethodBody := do
  let units ← Dalvik.Code.ofBytes code.bytes
  let insns ← Dalvik.decodeAll units pool
  if code.registers < s.inputRegisters then
    throw (.malformed 0 (.argumentRegisters s.inputRegisters code.registers))
  let (receiver, params) := assignInputs s (code.registers - s.inputRegisters)
  return ⟨code.handlers.foldl (fun insns h => markHandler h insns) insns, code.registers, receiver, params,
    code.tries, units.size⟩

/-- The targets of the handlers, each with what the first handler there catches. -/
def handlerEntries (code : RawCode) : ClassFile.Handlers :=
  code.handlers.foldl (fun known h =>
    if (known.lookup h.target).isSome then known else known ++ [(h.target, h.exception)]) []

def loadClassFile (code : RawCode) (s : Signature) (pool : Pool) : Except DecodeFault MethodBody := do
  if code.registers < s.inputRegisters then
    throw (.malformed 0 (.argumentLocals s.inputRegisters code.registers))
  let context : ClassFile.Context := ⟨⟨code.registers, code.maxStack⟩, pool, s.className⟩
  let registers ← ClassFile.registerCount context.frame
  let insns ← ClassFile.decodeAll context code.bytes code.handlerEntries
  let (receiver, params) := assignInputs s 0
  return ⟨insns, registers, receiver, params, code.tries, code.bytes.size⟩

def checkTry (length : Nat) (t : TryRange) : Except DecodeFault Unit := do
  if t.stop ≤ t.start ∨ length < t.stop then throw (.malformed t.start (.tryRange t.start t.stop))
  if let some h := t.handlers.find? fun h => length ≤ h.target then
    throw (.malformed t.start (.handlerOutside h.target))

/-- The source line of an offset, given the entries in the order of their offsets: that of the last entry that is
not after it. -/
def lineAt (sorted : List LineEntry) (offset : Nat) : Option Nat :=
  ((sorted.takeWhile fun e => e.offset ≤ offset).getLast?).map (·.line)

def attachLines (lines : List LineEntry) (insns : List Insn) : List Insn :=
  let sorted := lines.mergeSort fun a b => a.offset ≤ b.offset
  insns.map fun i => { i with line := lineAt sorted i.offset <|> i.line }

def load (code : RawCode) (s : Signature) (pool : Pool) : Except DecodeFault MethodBody := do
  let body ← match code.format with
    | .dalvik => code.loadDalvik s pool
    | .classFile => code.loadClassFile s pool
  body.tries.forM (checkTry body.length)
  return { body with insns := attachLines code.lines body.insns }

/-- The listing of code that may be broken. -/
def listing (code : RawCode) (pool : Pool) : List String :=
  match code.format with
  | .dalvik => match Dalvik.Code.ofBytes code.bytes with
    | .ok units => Dalvik.listing units pool
    | .error e => ["// " ++ e.message]
  | .classFile => ClassFile.Code.listing code.bytes

end RawCode

end JavaLift
