import JavaLift.DefUse.Chain
import JavaLift.Fault
import JavaLift.Hierarchy.Lattice

/-!
The types of variables. Definitions are joined until nothing changes; what the uses demand then decides among
the candidates that are left. The types are written back into the registers of the graph.
-/

namespace JavaLift

/-- Where the type of a definition comes from: it is settled, or it is the type of what a use reads, the type of
the elements of an array that a use reads, or the join of what several uses read and of further types. -/
inductive TypeSource where
  | settled (type : Ty)
  | copy (use : Nat)
  | element (array : Nat) (hint : Ty)
  | join (uses : List Nat) (types : List Ty)

namespace TypeSource

def uses : TypeSource → List Nat
  | .settled _ => []
  | .copy use => [use]
  | .element array _ => [array]
  | .join uses _ => uses

/-- What a copy of a register takes over. A hint on its result narrows it or stands in its place. -/
def ofMove (hint : Ty) : Option Nat → TypeSource
  | none => .settled hint
  | some use => match hint with
    | .unknown => .copy use
    | .narrow _ => .join [use] [hint]
    | _ => .settled hint

def ofElement (hint : Ty) : Option Nat → TypeSource
  | none => .settled hint
  | some array => .element array hint

/-- The type that an operation gives its result. The bitwise operations on int also serve booleans. -/
def ofOp (args : List Arg) (hint : Ty) : Op → Ty
  | .const => args.head?.elim hint Arg.type
  | .constString _ => .object Ty.stringClass
  | .constClass _ => .object Ty.classClass
  | .moveException caught => caught.getD (.object Ty.throwableClass)
  | .checkCast t | .newInstance t | .newArray t | .filledNewArray t => t
  | .instanceOf _ => .boolean
  | .arrayLength | .compare _ => .int
  | .arith op t => if t = .int && op.isBitwise then .narrow .narrowIntegral else t
  | .neg t | .not t | .cast _ t => t
  | .instanceGet f | .staticGet f => f.type
  | .invoke _ m => m.ret
  | .construct m => .ofClassName m.className
  | _ => hint

def ofInsn (c : Chain) (block pos : Nat) (i : Insn) : TypeSource :=
  let hint := i.result.elim .unknown (·.type)
  let useAt (n : Nat) := c.useAt? block pos [.arg n]
  match i.op with
  | .move => ofMove hint (useAt 0)
  | .arrayGet t => ofElement t (useAt 0)
  | .ternary .. =>
    let values := i.valueArgs.zipIdx
    .join (values.filterMap fun (a, n) => a.reg?.bind fun _ => useAt n)
      (values.filterMap fun (a, _) => if a.reg?.isSome then none else some a.type)
  | op => .settled (ofOp i.args hint op)

end TypeSource

/-- What the use of a register at a path demands. The argument of a return, throw or monitor is known from the
method or the operation, all others carry the demand with them. -/
def Insn.demand (i : Insn) (path : ArgPath) (returned : Ty) : Ty :=
  let declared := ((i.argAt? path).bind Arg.reg?).elim .unknown (·.type)
  if path.length = 1 then match i.op with
    | .ret => returned
    | .throw => .object Ty.throwableClass
    | .monitorEnter | .monitorExit => .object Ty.objectClass
    | _ => declared
  else declared

/-- The types of the variables of a method, their registers, the variables of the arguments, and how many steps
the types took to settle. -/
structure Typing where
  types : Array Ty
  regs : Array Nat
  entryVars : List Nat
  diagnostics : List Diagnostic
  steps : Nat

namespace Typing

def empty : Typing := ⟨#[], #[], [], [], 0⟩

structure Item where
  var : Nat
  source : TypeSource

/-- Remarks, and the variables that a conflict has been reported for. -/
structure Report where
  named : List Nat
  diagnostics : List Diagnostic

namespace Report

def conflict (r : Report) (var : Nat) (a b : Ty) : Report :=
  if r.named.contains var then r
  else ⟨var :: r.named, r.diagnostics ++ [⟨.typeConflict, "variable " ++ toString var
    ++ " has incompatible types " ++ a.render ++ " and " ++ b.render⟩]⟩

def limit (r : Report) (steps : Nat) : Report :=
  { r with diagnostics := r.diagnostics ++
    [⟨.typeIterationLimit, "type propagation stopped after " ++ toString steps ++ " steps"⟩] }

end Report

/-- The type that a source has under the present types of the variables. An element has the type of its array's
elements, unless the operation that reads it does not fit them. -/
def evaluate (h : Hierarchy) (useVar : Array (Option Nat)) (types : Array Ty) : TypeSource → Ty :=
  let typeOf (use : Nat) : Ty := ((useVar[use]?).join.bind fun v => types[v]?).getD .unknown
  fun
  | .settled t => t
  | .copy use => typeOf use
  | .element array hint => match typeOf array with
    | .array t => match hint with
      | .narrow s => if s.intersects t.candidates then t else hint
      | _ => t
    | _ => hint
  | .join uses fixed => (uses.map typeOf ++ fixed).foldl h.join .unknown

/-- The state of propagation: types so far, and the definitions to look at again, each by its number. -/
structure Progress where
  types : Array Ty
  queue : List Nat
  report : Report
  steps : Nat

def dependents (items : Array Item) (useVar : Array (Option Nat)) (var : Nat) : List Nat :=
  (List.range items.size).filter fun n =>
    (items[n]?).any fun item => item.source.uses.any fun use => (useVar[use]?).join == some var

/-- Looks at a definition: where its variable gets another type, those that read the variable follow. -/
def visit (h : Hierarchy) (items : Array Item) (useVar : Array (Option Nat)) (item : Item) (p : Progress) : Progress :=
  let old := (p.types[item.var]?).getD .unknown
  let new := evaluate h useVar p.types item.source
  let joined := h.join old new
  let report :=
    if joined = .conflict && old != .conflict && new != .conflict then p.report.conflict item.var old new else p.report
  if joined = old then { p with report }
  else
    let woken := (dependents items useVar item.var).filter fun n => !p.queue.contains n
    ⟨p.types.setIfInBounds item.var joined, p.queue ++ woken, report, p.steps⟩

def propagate (h : Hierarchy) (items : Array Item) (useVar : Array (Option Nat)) (limit : Nat) :
    Nat → Progress → Progress
  | budget, p => match p.queue with
    | [] => p
    | n :: rest => match budget with
      | 0 => { p with report := p.report.limit limit, steps := p.steps + 1 }
      | budget + 1 =>
        let p := { p with queue := rest, steps := p.steps + 1 }
        propagate h items useVar limit budget ((items[n]?).elim p fun item => visit h items useVar item p)

def demands (h : Hierarchy) (g : Graph) (c : Chain) (w : Webs) (returned : Ty) : Array Ty :=
  c.uses.toList.zipIdx.foldl (fun bounds (u, id) => match (w.useVar[id]?).join with
    | some v =>
      let hint := ((g.block u.block).insns[u.pos]?).elim .unknown fun i => i.demand u.path returned
      bounds.modify v fun t => h.meet t hint
    | none => bounds) (Array.replicate w.size .unknown)

def demandSources (h : Hierarchy) (copies : List (Nat × Nat)) (bounds : Array Ty) : Array Ty :=
  copies.foldl (fun bounds (source, target) =>
    bounds.modify source fun t => h.meet t ((bounds[target]?).getD .unknown)) bounds

def demandAll (h : Hierarchy) (copies : List (Nat × Nat)) : Nat → Array Ty → Array Ty
  | 0, bounds => bounds
  | rounds + 1, bounds =>
    let next := demandSources h copies bounds
    if next = bounds then bounds else demandAll h copies rounds next

/-- The final type of a variable that is known up to candidates, and whether the demand does not fit it. -/
def settleCandidates (s : Candidates) (bound : Ty) : Ty × Bool :=
  match bound with
  | .narrow b => (Ty.preferred (if s.intersects b then s.inter b else s), false)
  | t =>
    if t.isKnown then (if s.intersects t.candidates then (t, false) else (Ty.preferred s, true))
    else (Ty.preferred s, false)

/-- The final type of a variable, and whether its definitions and its uses are in conflict. -/
def settle (type bound : Ty) : Ty × Bool :=
  match type with
  | .unknown => match bound with
    | .narrow s => (Ty.preferred s, false)
    | t => (t, false)
  | .narrow s => settleCandidates s bound
  | t => (t, false)

def settleAll (types bounds : Array Ty) (report : Report) : Array Ty × Report :=
  (types.zip bounds).toList.zipIdx.foldl (fun (settled, report) ((type, bound), v) =>
    let (t, conflicts) := settle type bound
    (settled.push t, if conflicts then report.conflict v type bound else report)) (#[], report)

def typeRegister (types : Array Ty) (var : Nat) (r : Register) : Register :=
  let type := (types[var]?).getD .unknown
  ⟨r.reg, r.wide || type.isWide, type, some var⟩

def typeConstant (type : Ty) : List Arg → List Arg
  | .lit value _ :: rest => .lit value type :: rest
  | args => args

def typeResult (types : Array Ty) (var : Nat) (i : Insn) : Insn :=
  { i with
    args := if i.op = .const then typeConstant ((types[var]?).getD .unknown) i.args else i.args
    result := i.result.map (typeRegister types var) }

def typeUse (types : Array Ty) (var : Nat) (path : ArgPath) (i : Insn) : Insn :=
  (i.modifyAt? path fun a => a.reg?.map fun r => .reg (typeRegister types var r)).getD i

def typeInsn (types : Array Ty) (c : Chain) (w : Webs) (block pos : Nat) (i : Insn) : Insn :=
  let i := ((c.defAt? block pos).bind fun d => w.defVar[d]?).elim i fun v => typeResult types v i
  (((c.useTable[block]?).bind (·[pos]?)).getD []).foldl (fun i id =>
    ((w.useVar[id]?).join).elim i fun v => (c.uses[id]?).elim i fun u => typeUse types v u.path i) i

def writeBack (types : Array Ty) (c : Chain) (w : Webs) (g : Graph) : Graph :=
  { g with blocks := g.blocks.mapIdx fun b block =>
    { block with insns := block.insns.mapIdx fun pos i => typeInsn types c w b pos i } }

def itemsOf (g : Graph) (c : Chain) (w : Webs) : Array Item :=
  (c.defs.zip w.defVar).filterMap fun (d, var) => match d.site with
    | .entry => none
    | .insn b pos => ((g.block b).insns[pos]?).map fun i => ⟨var, .ofInsn c b pos i⟩

def copiesOf (items : Array Item) (w : Webs) : List (Nat × Nat) :=
  items.toList.filterMap fun item => match item.source with
    | .copy use => ((w.useVar[use]?).join).map fun v => (v, item.var)
    | _ => none

def startTypes (w : Webs) (entryTypes : List Ty) : Array Ty :=
  (entryTypes.zip w.defVar.toList).foldl (fun types (t, v) => types.setIfInBounds v t)
    (Array.replicate w.size .unknown)

def infer (h : Hierarchy) (limit : Nat) (g : Graph) (c : Chain) (entryTypes : List Ty) (returned : Ty) :
    Graph × Typing :=
  let w := Webs.of c
  let items := itemsOf g c w
  let start : Progress := ⟨startTypes w entryTypes, List.range items.size, ⟨[], []⟩, 0⟩
  let done := propagate h items w.useVar limit limit start
  let copies := copiesOf items w
  let bounds := demandAll h copies (min copies.length limit) (demands h g c w returned)
  let (types, report) := settleAll done.types bounds done.report
  (writeBack types c w g,
    ⟨types, w.varRegs, w.defVar.toList.take entryTypes.length, report.diagnostics, done.steps⟩)

end Typing

end JavaLift
