import JavaLift.Fold.Conditional
import JavaLift.Fold.Construction
import JavaLift.Flow.Build
import JavaLift.Inline.Plan
import JavaLift.Load
import JavaLift.Options
import JavaLift.Source.Method

namespace JavaLift

structure Stats where
  insns : Nat
  blocks : Nat
  variableCount : Nat
  constructors : Nat
  inlined : Nat
  inlinePasses : Nat
  ternaries : Nat
  typeSteps : Nat
deriving DecidableEq

def Stats.none : Stats := ⟨0, 0, 0, 0, 0, 0, 0, 0⟩

structure MethodResult where
  key : String
  text : CodeText
  diagnostics : List Diagnostic
  failure : Option Failure
  stats : Stats

namespace MethodBody

def entryRegisters (b : MethodBody) (className : String) : List Register :=
  (b.receiver.map fun r => Register.typed r (.object className)).toList ++ b.params

end MethodBody

namespace Inlining

def join (a b : Inlining) : Inlining := ⟨a.passes + b.passes, a.moved + b.moved, a.diagnostics ++ b.diagnostics⟩

end Inlining

namespace Options

def style (o : Options) (depth : Nat) : Source.Style := ⟨o.indent, depth, o.emitOffsets⟩

end Options

/-- A graph whose values have been moved into place, with what was done to it. -/
structure Shaped where
  graph : Graph
  root : Region
  inlining : Inlining
  ternaries : Nat
  constructors : Nat

namespace Shaped

variable (o : Options) (entry : List Register)

def inlineAgain (count : Nat) (s : Shaped) : Except Inconsistency Shaped :=
  if count = 0 then .ok s
  else do
    let (g, r) ← s.graph.inlineValues entry o.maxInlinePasses
    return { s with graph := g, inlining := s.inlining.join r }

def foldConditionals (s : Shaped) : Except Inconsistency Shaped :=
  if o.foldTernaries then
    let (g, root, n) := Conditionals.foldAll s.graph s.root
    inlineAgain o entry n { s with graph := g, root := root, ternaries := n }
  else .ok s

/-- Folds the constructions whose arguments have come together only now. -/
def foldConstructions (s : Shaped) : Except Inconsistency Shaped :=
  if o.foldConstructors then
    let (g, n) := Construction.foldAll s.graph (Chain.build s.graph entry)
    inlineAgain o entry n { s with graph := g, constructors := s.constructors + n }
  else .ok s

def of (g : Graph) (root : Region) (constructors : Nat) : Except Inconsistency Shaped := do
  let (g, r) ← g.inlineValues entry o.maxInlinePasses
  let s ← foldConditionals o entry ⟨g, root, r, 0, constructors⟩
  foldConstructions o entry s

end Shaped

structure Decompiler where
  hierarchy : Hierarchy
  options : Options

namespace Decompiler

variable (c : Decompiler)

/-- Builds the graph of a body, and folds the constructions whose parts stand together. -/
def graphOf (body : MethodBody) (entry : List Register) : Except Inconsistency (Graph × Nat) := do
  let g ← Graph.build body.insns body.tries body.length
  return if c.options.foldConstructors then Construction.foldAll g (Chain.build g entry) else (g, 0)

def renderBody (s : Signature) (depth : Nat) (body : MethodBody) : Except Inconsistency MethodResult := do
  let entry := body.entryRegisters s.className
  let (g, constructors) ← c.graphOf body entry
  let (g, typing) := Typing.infer c.hierarchy c.options.maxTypeIterations g (Chain.build g entry)
    (entry.map (·.type)) s.ret
  let tree := Structured.of g
  let shaped ← Shaped.of c.options entry g tree.root constructors
  let lifted := Source.Lifted.of s shaped.graph { tree with root := shaped.root } typing
  let (text, remarks) := lifted.render (c.options.style depth)
  return {
    key := s.name ++ s.descriptor
    text := text
    diagnostics := typing.diagnostics ++ tree.diagnostics ++ shaped.inlining.diagnostics ++ remarks
    failure := none
    stats := ⟨body.insns.length, g.size, typing.types.size, shaped.constructors, shaped.inlining.moved,
      shaped.inlining.passes, shaped.ternaries, typing.steps⟩ }

def tryMethod (s : Signature) (code : RawCode) (pool : Pool) (depth : Nat) : Except Failure MethodResult := do
  let body ← (code.load s pool).mapError .decode
  (c.renderBody s depth body).mapError .inconsistent

def method (m : MethodInput) (pool : Pool) (depth : Nat) : MethodResult :=
  let s := m.signature
  let key := s.name ++ s.descriptor
  let style := c.options.style depth
  match m.code with
  | none => ⟨key, Source.declaration s style, [], none, .none⟩
  | some code => match c.tryMethod s code pool depth with
    | .ok r => r
    | .error e =>
      let listing := if c.options.rawFallback then code.listing pool else []
      ⟨key, Source.fallback s e.message listing style, [], some e, .none⟩

end Decompiler

end JavaLift
