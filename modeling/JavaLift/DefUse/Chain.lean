import JavaLift.DefUse.Reaching

/-!
Definitions and uses of registers. Every use has the definitions that reach it. Only the result of a whole
instruction is a definition, not those of the instructions inside it.
-/

namespace JavaLift

structure Use where
  reg : Nat
  block : Nat
  pos : Nat
  path : ArgPath
  reaching : List Nat
deriving DecidableEq

/-- The definitions and uses of a method. The tables give the definition and the uses of every instruction, and
the uses of every definition. -/
structure Chain where
  defs : Array Def
  uses : Array Use
  defTable : Array (Array (Option Nat))
  useTable : Array (Array (List Nat))
  usesOf : Array (List Nat)

namespace Chain

def blockDefs (b : Nat) (insns : List Insn) : List Def :=
  insns.zipIdx.filterMap fun (i, pos) => i.result.map fun r => ⟨r.reg, r.wide, .insn b pos⟩

/-- The definitions at entry and then those of the blocks, in their order. -/
def collectDefs (g : Graph) (entry : List Register) : List Def :=
  entry.map (fun r => ⟨r.reg, r.wide, .entry⟩)
    ++ g.blocks.toList.zipIdx.flatMap fun (block, b) => blockDefs b block.insns

def numberRow (next : Nat) (insns : List Insn) : Nat × Array (Option Nat) :=
  insns.foldl (fun (n, row) i => if i.result.isSome then (n + 1, row.push (some n)) else (n, row.push none))
    (next, #[])

def numberDefs (g : Graph) (entryCount : Nat) : Array (Array (Option Nat)) :=
  (g.blocks.foldl (fun (n, rows) block =>
    let (n, row) := numberRow n block.insns
    (n, rows.push row)) (entryCount, #[])).2

/-- Registers with the definitions that reach a place, in the order of the numbers of the definitions. -/
abbrev Env := List (Nat × Nat)

def Env.reaching (env : Env) (reg : Nat) : List Nat := (env.filter (·.1 == reg)).map (·.2)

def Env.define (env : Env) (id : Nat) (d : Def) : Env :=
  env.filter (fun (reg, _) => !d.written.contains reg) ++ [(d.reg, id)]

def blockUses (defs : Array Def) (row : Array (Option Nat)) (b : Nat) : Env → Nat → List Insn → List Use
  | _, _, [] => []
  | env, pos, i :: rest =>
    let uses := i.reads.map fun (path, r) => Use.mk r.reg b pos path (env.reaching r.reg)
    let env := match (row[pos]?).join with
      | some id => (defs[id]?).elim env (env.define id)
      | none => env
    uses ++ blockUses defs row b env (pos + 1) rest

def startEnv (defs : Array Def) (ids : NatSet) : Env :=
  ids.toList.filterMap fun id => (defs[id]?).map fun d => (d.reg, id)

def equations (g : Graph) (entry : List Register) : Equations :=
  .of g (collectDefs g entry).toArray entry.length (numberDefs g entry.length)

def reached (g : Graph) (entry : List Register) : Reaching :=
  (equations g entry).solve (collectDefs g entry).length

def tableOfUses (g : Graph) (uses : List Use) : Array (Array (List Nat)) :=
  uses.zipIdx.foldl (fun table (u, id) => table.modify u.block fun row => row.modify u.pos (· ++ [id]))
    (g.blocks.map fun block => Array.replicate block.insns.length [])

def listUses (count : Nat) (uses : List Use) : Array (List Nat) :=
  uses.zipIdx.foldl (fun lists (u, id) => u.reaching.foldl (fun lists d => lists.modify d (· ++ [id])) lists)
    (Array.replicate count [])

def build (g : Graph) (entry : List Register) : Chain :=
  let defs := (collectDefs g entry).toArray
  let rows := numberDefs g entry.length
  let reached := reached g entry
  let uses := g.blocks.toList.zipIdx.flatMap fun (block, b) =>
    blockUses defs ((rows[b]?).getD #[]) b (startEnv defs (reached.atStart b)) 0 block.insns
  ⟨defs, uses.toArray, rows, tableOfUses g uses, listUses defs.size uses⟩

def defAt? (c : Chain) (block pos : Nat) : Option Nat := do
  let row ← c.defTable[block]?
  (← row[pos]?)

def useAt? (c : Chain) (block pos : Nat) (path : ArgPath) : Option Nat := do
  let row ← c.useTable[block]?
  let ids ← row[pos]?
  ids.find? fun id => c.uses[id]?.any fun u => u.path == path

def reaching (c : Chain) (use : Nat) : List Nat := (c.uses[use]?).elim [] (·.reaching)

def usesOfDef (c : Chain) (d : Nat) : List Nat := (c.usesOf[d]?).getD []

def isSingleUse (c : Chain) (d : Nat) : Bool := (c.usesOfDef d).length == 1

/-- The position in the same block of the definition that could take the place of a use: the only one that
reaches it, before it, and read nowhere else. -/
def inlineSource? (c : Chain) (block pos : Nat) (path : ArgPath) : Option Nat := do
  let u ← c.useAt? block pos path
  match c.reaching u with
  | [d] => match (← c.defs[d]?).site with
    | .insn b p => if b = block ∧ p < pos ∧ c.isSingleUse d then some p else none
    | .entry => none
  | _ => none

end Chain

/-- The variables of the definitions and of the uses; a use that no definition reaches has none. -/
structure Webs where
  defVar : Array Nat
  useVar : Array (Option Nat)
  varRegs : Array Nat

namespace Webs

/-- Puts two definitions into one class, which is named after its least member. All members get the name at once. A
forest would hang the greater root below the smaller one and leave the rest to later look-ups; the roots are the
same. -/
def merge (classes : Array Nat) (a b : Nat) : Array Nat :=
  let x := (classes[a]?).getD a
  let y := (classes[b]?).getD b
  if x = y then classes else classes.map fun c => if c = max x y then min x y else c

def mergeAll (classes : Array Nat) : List Nat → Array Nat
  | [] => classes
  | d :: rest => rest.foldl (fun classes e => merge classes d e) classes

def classesOf (c : Chain) : Array Nat := c.uses.foldl (fun classes u => mergeAll classes u.reaching) (Array.range c.defs.size)

def of (c : Chain) : Webs :=
  let classes := classesOf c
  let roots := (List.range c.defs.size).filter fun d => classes[d]? == some d
  let defVar := classes.map fun root => roots.idxOf root
  { defVar
    useVar := c.uses.map fun u => u.reaching.head?.bind fun d => defVar[d]?
    varRegs := (roots.map fun d => (c.defs[d]?).elim 0 (·.reg)).toArray }

def size (w : Webs) : Nat := w.varRegs.size

end Webs

end JavaLift
