import JavaLift.Body
import JavaLift.Flow.Digraph
import JavaLift.Insn.Printer

/-!
Control flow graphs. The blocks are numbered in the order of the code, and control enters at `entry`. An edge to
a handler stands for an exception anywhere in the block.
-/

namespace JavaLift

/-- Instructions that run one after the other. Where the last one is a conditional jump, the first successor is
the block after it; where it is a switch, the first successor is the default. -/
structure Block where
  start : Nat
  insns : List Insn
  succs : List Nat
  handlers : List Nat
deriving Inhabited

namespace Block

def terminator? (b : Block) : Option Insn := b.insns.getLast?.filter fun i => i.op.isTerminator

def exitOp? (b : Block) : Option Op := b.terminator?.map fun i => i.op

def statements (b : Block) : List Insn := if b.terminator?.isSome then b.insns.dropLast else b.insns

def isExit (b : Block) : Bool := b.terminator?.any fun i => i.op == .ret || i.op == .throw

def endsInIf (b : Block) : Bool := b.terminator?.any fun i => i.op.isIf

def firstOffset (b : Block) : Nat := b.insns.head?.elim b.start fun i => i.offset

end Block

structure HandlerBlock where
  exception : Option Ty
  block : Nat
deriving DecidableEq

/-- A guarded range in terms of blocks: those that start in it, in increasing order. -/
structure TryRegion where
  start : Nat
  stop : Nat
  handlers : List HandlerBlock
  covered : List Nat

structure Graph where
  blocks : Array Block
  entry : Nat
  tries : List TryRegion

namespace Graph

def size (g : Graph) : Nat := g.blocks.size

/-- The block of a number; an empty one where there is none. -/
def block (g : Graph) (b : Nat) : Block := (g.blocks[b]?).getD ⟨0, [], [], []⟩

def succs (g : Graph) (b : Nat) : List Nat := (g.block b).succs

def handlers (g : Graph) (b : Nat) : List Nat := (g.block b).handlers

def exits (g : Graph) (b : Nat) : List Nat := g.succs b ++ g.handlers b

/-- The edges turned round: each block is put behind the others on the list of every block that it leads to. -/
def turnRound (size : Nat) (targets : Nat → List Nat) : Array (List Nat) :=
  (List.range size).foldl (fun sources b => (targets b).foldl (fun sources n => sources.modify n (· ++ [b])) sources)
    (Array.replicate size [])

def preds (g : Graph) (b : Nat) : List Nat := ((turnRound g.size g.succs)[b]?).getD []

def exceptionPreds (g : Graph) (b : Nat) : List Nat := ((turnRound g.size g.handlers)[b]?).getD []

def isHandlerEntry (g : Graph) (b : Nat) : Bool := !(g.exceptionPreds b).isEmpty

def blockAt? (g : Graph) (offset : Nat) : Option Nat := g.blocks.findIdx? fun b => b.start == offset

def digraph (g : Graph) : Digraph := ⟨g.size, g.exits⟩

def setInsns (g : Graph) (b : Nat) (insns : List Insn) : Graph :=
  { g with blocks := g.blocks.modify b fun block => { block with insns := insns } }

def blockLines (b : Nat) (block : Block) : List String :=
  ("  Block " ++ toString b ++ " @" ++ Text.offset block.start ++ ": succs="
      ++ Text.bracketed (block.succs.map toString) ++ " handlers=" ++ Text.bracketed (block.handlers.map toString))
    :: block.insns.map fun i => "    " ++ Text.offset i.offset ++ ": " ++ i.render

def render (g : Graph) : String :=
  String.join <| (["Control Flow Graph:", "  Entry Block: " ++ toString g.entry,
    "  Block Count: " ++ toString g.size]
      ++ (g.blocks.toList.zipIdx.flatMap fun (block, b) => blockLines b block)).map (· ++ "\n")

end Graph

end JavaLift
