import JavaLift.Body
import JavaLift.ClassFile.Bytecode
import JavaLift.ClassFile.Stack

/-!
Class file bytecode read as instructions on registers. First the shape of the stack is found at every
instruction that can be reached, starting from the entry and from the handlers; where two ways meet they have to
bring the same shape. Then each reached instruction is written out for its shape.
-/

namespace JavaLift.ClassFile

structure Context where
  frame : Frame
  pool : Pool
  className : String

/-- The instructions that an action becomes, and where control goes from it. -/
structure Effect where
  insns : List Insn
  falls : Bool
  targets : List Nat

namespace Effect

def next (insns : List Insn) : Effect := ⟨insns, true, []⟩

def stop (insn : Insn) : Effect := ⟨[insn], false, []⟩

end Effect

def typedConst (pc reg : Nat) (value : Int) (type : Ty) : Insn :=
  .of .const [.lit value type] (some (.typed reg type)) pc

/-- The type of an int constant: any of the small integers that can hold it. -/
def intConstType (value : Int) : Ty :=
  .narrow (((Candidates.ofLiteral value false).diff (.single .float)).diff .reference)

/-- How many values a shuffle takes, and the numbers of the values that replace them. -/
def shuffleOf (pc : Nat) : Shuffle → StackM (Nat × List Nat)
  | .dup => pure (1, [0, 0])
  | .dupX1 => pure (2, [1, 0, 1])
  | .dupX2 => do
    if (← StackM.peek pc 1) = .two then return (2, [1, 0, 1]) else return (3, [2, 0, 1, 2])
  | .dup2 => do
    if (← StackM.peek pc 0) = .two then return (1, [0, 0]) else return (2, [0, 1, 0, 1])
  | .dup2X1 => do
    if (← StackM.peek pc 0) = .two then return (2, [1, 0, 1]) else return (3, [1, 2, 0, 1, 2])
  | .dup2X2 => do
    match ← StackM.peek pc 0, ← StackM.peek pc 1 with
    | .two, .two => return (2, [1, 0, 1])
    | .two, .one => return (3, [2, 0, 1, 2])
    | .one, _ =>
      if (← StackM.peek pc 2) = .two then return (3, [1, 2, 0, 1, 2]) else return (4, [2, 3, 0, 1, 2, 3])
  | .swap => pure (2, [1, 0])

def reference {α : Type} (kind : RefKind) (found : Option α) (index pc : Nat) : StackM α :=
  match found with
  | some a => pure a
  | none => throw (.badReference kind index pc)

/-- The way a call is made. A special call of a constructor or of a method of the own class is direct, any other
one goes to the super class. -/
def CallKind.invokeKind (k : CallKind) (className : String) (m : MethodRef) : InvokeKind :=
  match k with
  | .virtual => .virtual
  | .special => if m.isConstructor || m.className == className then .direct else .super
  | .static => .static
  | .interface => .interface

/-- Takes the arguments of the given types from the stack, the last one first. -/
def popArguments (f : Frame) (pc : Nat) (types : List Ty) : StackM (List Arg) := do
  let args ← types.reverse.mapM fun t => do return Arg.ofTyped (← StackM.pop f pc (.ofType t)) t
  return args.reverse

def perform (c : Context) (pc : Nat) (action : Action) : StackM Effect := do
  let push (category : Category) := StackM.push c.frame pc category
  let pop (category : Category) := StackM.pop c.frame pc category
  let emit (op : Op) (args : List Arg) (result : Option Register) : StackM Effect :=
    pure (.next [.of op args result pc])
  let typeAt (index : Nat) := reference .cls (c.pool.type? index) index pc
  let fieldAt (index : Nat) := reference .field (c.pool.field? index) index pc
  let pushConst (value : Int) (type : Ty) : StackM Effect := do
    let r ← push (.ofType type)
    return .next [typedConst pc r value type]
  match action with
  | .nop => return .next []
  | .pushNull => pushConst 0 (.narrow .reference)
  | .pushInt value => pushConst value (intConstType value)
  | .pushLong value => pushConst value .long
  | .pushFloat bits => pushConst bits .float
  | .pushDouble bits => pushConst (signed 64 bits) .double
  | .loadConstant index =>
    match ← reference .constant (c.pool.constant? index) index pc with
    | .int value => pushConst value (intConstType value)
    | .float bits => pushConst bits .float
    | .long value => pushConst value .long
    | .double bits => pushConst (signed 64 bits) .double
    | .string s =>
      let r ← push .one
      emit (.constString s) [] (some (.typed r (.object Ty.stringClass)))
    | .cls t =>
      let r ← push .one
      emit (.constClass t) [] (some (.typed r (.object Ty.classClass)))
  | .load type index =>
    let r ← push (.ofType type)
    emit .move [.ofTyped index type] (some (.typed r type))
  | .store type index =>
    if c.frame.locals ≤ index then StackM.fail pc .localRange
    let r ← pop (.ofType type)
    emit .move [.ofTyped r type] (some (.typed index type))
  | .arrayLoad type =>
    let index ← pop .one
    let array ← pop .one
    let r ← push (.ofType type)
    emit (.arrayGet type) [.ofReg array, .ofTyped index .int] (some (.typed r type))
  | .arrayStore type =>
    let value ← pop (.ofType type)
    let index ← pop .one
    let array ← pop .one
    emit (.arrayPut type) [.ofReg array, .ofTyped index .int, .ofTyped value type] none
  | .pop =>
    let _ ← pop .one
    return .next []
  | .popTwo =>
    StackM.popTwo pc
    return .next []
  | .shuffle kind =>
    let (take, pattern) ← shuffleOf pc kind
    return .next (← permute c.frame pc take pattern)
  | .arith op type =>
    let right := if op.isShift then .int else type
    let b ← pop (.ofType right)
    let a ← pop (.ofType type)
    let r ← push (.ofType type)
    emit (.arith op type) [.ofTyped a type, .ofTyped b right] (some (.typed r type))
  | .neg type =>
    let a ← pop (.ofType type)
    let r ← push (.ofType type)
    emit (.neg type) [.ofTyped a type] (some (.typed r type))
  | .increment index delta =>
    emit (.arith .add .int) [.ofTyped index .int, .lit delta .int] (some (.typed index .int))
  | .convert source target =>
    let a ← pop (.ofType source)
    let r ← push (.ofType target)
    emit (.cast source target) [.ofTyped a source] (some (.typed r target))
  | .compare type =>
    let b ← pop (.ofType type)
    let a ← pop (.ofType type)
    let r ← push .one
    emit (.compare type) [.ofTyped a type, .ofTyped b type] (some (.typed r .int))
  | .ifZero cmp target =>
    let a ← pop .one
    return ⟨[.of (.jumpIf cmp target) [.ofReg a] none pc], true, [target]⟩
  | .ifPair cmp target =>
    let b ← pop .one
    let a ← pop .one
    return ⟨[.of (.jumpIf cmp target) [.ofReg a, .ofReg b] none pc], true, [target]⟩
  | .jump target => return ⟨[.of (.goto target) [] none pc], false, [target]⟩
  | .switch cases default =>
    let a ← pop .one
    let targets := cases.map (·.2)
    return ⟨[.of (.switchOn (cases.map (·.1)) targets (some default)) [.ofTyped a .int] none pc], false,
      targets ++ [default]⟩
  | .returnValue type =>
    let a ← pop (.ofType type)
    return .stop (.of .ret [.ofTyped a type] none pc)
  | .returnVoid => return .stop (.of .ret [] none pc)
  | .getStatic index =>
    let f ← fieldAt index
    let r ← push (.ofType f.type)
    emit (.staticGet f) [] (some (.typed r f.type))
  | .putStatic index =>
    let f ← fieldAt index
    let a ← pop (.ofType f.type)
    emit (.staticPut f) [.ofTyped a f.type] none
  | .getField index =>
    let f ← fieldAt index
    let object ← pop .one
    let r ← push (.ofType f.type)
    emit (.instanceGet f) [.ofTyped object (.ofClassName f.className)] (some (.typed r f.type))
  | .putField index =>
    let f ← fieldAt index
    let a ← pop (.ofType f.type)
    let object ← pop .one
    emit (.instancePut f) [.ofTyped object (.ofClassName f.className), .ofTyped a f.type] none
  | .call kind index =>
    let m ← reference .method (c.pool.method? index) index pc
    let kind := kind.invokeKind c.className m
    let params ← popArguments c.frame pc m.params
    let args ← if kind.isStatic then pure params else do
      let receiver ← pop .one
      pure (.ofTyped receiver (.ofClassName m.className) :: params)
    let result ← if m.ret = .void then pure none else do
      let r ← push (.ofType m.ret)
      pure (some (Register.typed r m.ret))
    emit (.invoke kind m) args result
  | .newObject index =>
    let t ← typeAt index
    let r ← push .one
    emit (.newInstance t) [] (some (.typed r t))
  | .newPrimitives code =>
    let element ← match primitiveType? code with
      | some t => pure t
      | none => StackM.fail pc .elementType
    let size ← pop .one
    let r ← push .one
    emit (.newArray (.array element)) [.ofTyped size .int] (some (.typed r (.array element)))
  | .newArray index =>
    let element ← typeAt index
    let size ← pop .one
    let r ← push .one
    emit (.newArray (.array element)) [.ofTyped size .int] (some (.typed r (.array element)))
  | .arrayLength =>
    let a ← pop .one
    let r ← push .one
    emit .arrayLength [.ofReg a] (some (.typed r .int))
  | .throw =>
    let a ← pop .one
    return .stop (.of .throw [.ofReg a] none pc)
  | .checkCast index =>
    let t ← typeAt index
    let a ← pop .one
    let r ← push .one
    emit (.checkCast t) [.ofReg a] (some (.typed r t))
  | .instanceOf index =>
    let t ← typeAt index
    let a ← pop .one
    let r ← push .one
    emit (.instanceOf t) [.ofReg a] (some (.typed r .boolean))
  | .monitorEnter =>
    let a ← pop .one
    emit .monitorEnter [.ofReg a] none
  | .monitorExit =>
    let a ← pop .one
    emit .monitorExit [.ofReg a] none

def step (c : Context) (op : RawOp) (shape : Shape) : Except DecodeFault (Effect × Shape) :=
  match op.action? with
  | some action => (perform c op.offset action).run shape
  | none => .error (.unknownOpcode op.opcode op.offset)

/-- The shape of the stack before each instruction that has been reached, and those still to be followed, the
latest one first. -/
structure Reached where
  shapes : Array (Option Shape)
  work : List Nat

def indexOf (ops : Array RawOp) (target source : Nat) : Except DecodeFault Nat :=
  match ops.findIdx? fun op => op.offset == target with
  | some i => .ok i
  | none => .error (.malformed source (.noBoundary target))

def Reached.visit (ops : Array RawOp) (shape : Shape) (r : Reached) (i : Nat) : Except DecodeFault Reached :=
  match r.shapes[i]? with
  | some (some known) =>
    if known = shape then .ok r else .error (.malformed (ops[i]?.elim 0 (·.offset)) .stackShape)
  | _ => .ok ⟨r.shapes.setIfInBounds i (some shape), i :: r.work⟩

def successors (ops : Array RawOp) (i : Nat) (op : RawOp) (e : Effect) : Except DecodeFault (List Nat) := do
  if e.falls ∧ ops.size ≤ i + 1 then throw (.malformed op.offset .fallsOffEnd)
  let targets ← e.targets.mapM fun t => indexOf ops t op.offset
  return if e.falls then (i + 1) :: targets else targets

def Reached.advance (c : Context) (ops : Array RawOp) (r : Reached) (i : Nat) : Except DecodeFault Reached := do
  match ops[i]? with
  | none => return r
  | some op =>
    let (effect, shape) ← step c op ((r.shapes[i]?.join).getD [])
    let next ← successors ops i op effect
    next.foldlM (Reached.visit ops shape) r

/-- Follows instructions until none is left. Each is followed once for every time that it is put on the list. -/
def Reached.close (c : Context) (ops : Array RawOp) : Nat → Reached → Except DecodeFault Reached
  | 0, r => .ok r
  | rounds + 1, r => match r.work with
    | [] => .ok r
    | i :: rest => match Reached.advance c ops ⟨r.shapes, rest⟩ i with
      | .ok r => Reached.close c ops rounds r
      | .error e => .error e

abbrev Handlers := List (Nat × Option Ty)

/-- The entry with an empty stack, and each handler with the exception on its stack. -/
def Reached.start (ops : Array RawOp) (handlers : Handlers) : Except DecodeFault Reached :=
  handlers.foldlM (fun r (target, _) => do
    let i ← indexOf ops target target
    return ⟨r.shapes.setIfInBounds i (some [.one]), i :: r.work⟩)
    ⟨(Array.replicate ops.size none).setIfInBounds 0 (some []), [0]⟩

def shapesOf (c : Context) (ops : Array RawOp) (handlers : Handlers) : Except DecodeFault (Array (Option Shape)) := do
  let start ← Reached.start ops handlers
  let r ← start.close c ops (ops.size + handlers.length + 1)
  return r.shapes

def handlerEntry (c : Context) (pc : Nat) (caught : Option Ty) : Insn :=
  .of (.moveException caught) [] (some (.typed c.frame.locals (caught.getD (.object Ty.throwableClass)))) pc

def writeOut (c : Context) (handlers : Handlers) (op : RawOp) (shape : Shape) : Except DecodeFault (List Insn) := do
  let (effect, _) ← step c op shape
  return match handlers.lookup op.offset with
    | some caught => handlerEntry c op.offset caught :: effect.insns
    | none => effect.insns

def registerCount (f : Frame) : Except DecodeFault Nat :=
  let n := f.locals + f.maxStack + tempSlots
  if n < 65536 then .ok n else .error (.malformed 0 .registerOverflow)

/-- The instructions of a method. What cannot be reached is left out. -/
def decodeAll (c : Context) (code : Code) (handlers : Handlers) : Except DecodeFault (List Insn) := do
  let _ ← registerCount c.frame
  let ops ← code.readFrom 0
  if ops.isEmpty then return []
  let shapes ← shapesOf c ops.toArray handlers
  let parts ← (ops.zip shapes.toList).mapM fun (op, shape) =>
    match shape with
    | some shape => writeOut c handlers op shape
    | none => .ok []
  return parts.flatten

end JavaLift.ClassFile
