import JavaLift.Body
import JavaLift.ClassFile.Bytecode
import JavaLift.ClassFile.Decoder
import JavaLift.ClassFile.Stack
import JavaLift.Code.Metadata
import JavaLift.Code.Writer
import JavaLift.CommandLine.Arguments
import JavaLift.CommandLine.Invocation
import JavaLift.CommandLine.Run
import JavaLift.Dalvik.Assembler
import JavaLift.Dalvik.Code
import JavaLift.Dalvik.Decoder
import JavaLift.Dalvik.Opcode
import JavaLift.Decimal.Binary
import JavaLift.Decimal.Shortest
import JavaLift.Decompile.Class
import JavaLift.Decompile.Method
import JavaLift.DefUse.Chain
import JavaLift.DefUse.Reaching
import JavaLift.Dump.Basic
import JavaLift.Dump.Convert
import JavaLift.Dump.Reader
import JavaLift.Fault
import JavaLift.Flow.Build
import JavaLift.Flow.Digraph
import JavaLift.Flow.Dominance
import JavaLift.Flow.Graph
import JavaLift.Fold.Conditional
import JavaLift.Fold.Construction
import JavaLift.Hierarchy.Basic
import JavaLift.Hierarchy.Lattice
import JavaLift.Inline.Plan
import JavaLift.Insn.Basic
import JavaLift.Insn.Op
import JavaLift.Insn.Printer
import JavaLift.Insn.Tree
import JavaLift.Json.Basic
import JavaLift.Json.Float
import JavaLift.Json.Printer
import JavaLift.Json.Reader
import JavaLift.Load
import JavaLift.Main
import JavaLift.Member
import JavaLift.NatSet
import JavaLift.Options
import JavaLift.Pool
import JavaLift.Region.Basic
import JavaLift.Region.Structure
import JavaLift.Source.Declare
import JavaLift.Source.Expr
import JavaLift.Source.Layout
import JavaLift.Source.Literal
import JavaLift.Source.Method
import JavaLift.Source.Name
import JavaLift.Text.CharRanges
import JavaLift.Text.Hex
import JavaLift.Text.Lowercase
import JavaLift.Text.Printable
import JavaLift.Text.Quoted
import JavaLift.Ty.Basic
import JavaLift.Ty.Candidates
import JavaLift.Ty.Descriptor
import JavaLift.Typing.Inference
import JavaLift.Word
import JavaLift.Proofs.Inline.Planning
import JavaLift.Proofs.Inline.Order
import JavaLift.Proofs.Inline.Apply
import JavaLift.Proofs.Inline.Branches
import JavaLift.Proofs.Region.Agreement
import JavaLift.Proofs.NatSet
import JavaLift.Proofs.Region.Placement
import JavaLift.Proofs.Fold.Outcomes
import JavaLift.Proofs.Fold.Replacement
import JavaLift.Proofs.Fold.Conditional
import JavaLift.Proofs.Fold.Execution
import JavaLift.Proofs.Flow.Walk
import JavaLift.Proofs.Region.Fitting
import JavaLift.Proofs.Region.Traversal
import JavaLift.Proofs.Region.Frames
import JavaLift.Proofs.Region.Following
import JavaLift.Proofs.Region.Structuring
import JavaLift.Proofs.Flow.Reach
import JavaLift.Proofs.Flow.Search
import JavaLift.Proofs.Region.Loops
import JavaLift.Proofs.Except
import JavaLift.Proofs.Flow.Build
import JavaLift.Proofs.Flow.Bounds
import JavaLift.Proofs.Flow.Cutting
import JavaLift.Proofs.Flow.Slicing
import JavaLift.Proofs.Flow.ControlFlow
import JavaLift.Proofs.Flow.Onward
import JavaLift.Proofs.Region.Laying
import JavaLift.Proofs.Region.Totality
import JavaLift.Proofs.Region.Spending
import JavaLift.Proofs.Region.Simulation
import JavaLift.Proofs.Region.Sealing
import JavaLift.Proofs.Region.Guarding
import JavaLift.Proofs.ClassFile.Offsets
import JavaLift.Proofs.ClassFile.Effects
import JavaLift.Proofs.ClassFile.Shapes
import JavaLift.Proofs.ClassFile.StackMachine
import JavaLift.Proofs.ClassFile.Shuffles
import JavaLift.Proofs.ClassFile.Transfers
import JavaLift.Proofs.Dalvik.Items
import JavaLift.Proofs.Load
import JavaLift.Proofs.DefUse.Chain
import JavaLift.Proofs.DefUse.Numbers
import JavaLift.Proofs.DefUse.Carried
import JavaLift.Proofs.DefUse.Reaching
import JavaLift.Proofs.DefUse.Uses
import JavaLift.Proofs.Inline.Conservation
import JavaLift.Proofs.Construction.Placing
import JavaLift.Proofs.Construction.Carrying
import JavaLift.Proofs.Construction.DataFlow
import JavaLift.Proofs.Code.Lookup
import JavaLift.Proofs.Code.Writer
import JavaLift.Proofs.Dalvik.Cells
import JavaLift.Proofs.Dalvik.Filling
import JavaLift.Proofs.Dalvik.Lines
import JavaLift.Proofs.Dalvik.Reading
import JavaLift.Proofs.Dalvik.Meaning
import JavaLift.Proofs.Dalvik.Roundtrip
import JavaLift.Proofs.Dalvik.ArrayData
import JavaLift.Proofs.Source.Tokens
import JavaLift.Proofs.Source.Grammar
import JavaLift.Proofs.Source.Levels
import JavaLift.Proofs.Source.Printing
import JavaLift.Proofs.Source.Literals
import JavaLift.Proofs.Source.Trees
import JavaLift.Proofs.Source.Expression
import JavaLift.Proofs.Source.Covering
import JavaLift.Proofs.Source.Nesting
import JavaLift.Proofs.Source.Passes
import JavaLift.Proofs.Source.WellScoped
import JavaLift.Proofs.Region.Building
import JavaLift.Proofs.Region.Jumps
import JavaLift.Proofs.Region.Handlers
import JavaLift.Proofs.Decompile.Assembly
import JavaLift.Proofs.DefUse.Webs
import JavaLift.Proofs.Typing.WriteBack
import JavaLift.Proofs.Typing.Variables
import JavaLift.Proofs.ClassFile.Registers
import JavaLift.Proofs.Flow.SearchOrder
import JavaLift.Proofs.Flow.Reducible
import JavaLift.Proofs.Region.NaturalLoops
import JavaLift.Proofs.Hierarchy.Ancestors
import JavaLift.Proofs.Ty.Candidates
import JavaLift.Proofs.Ty.Descriptor
import JavaLift.Proofs.Dump.Faults
import JavaLift.Proofs.Hierarchy.Join
import JavaLift.Proofs.Hierarchy.Regrouping
import JavaLift.Proofs.Hierarchy.Semilattice
import JavaLift.Proofs.Typing.Propagation
import JavaLift.Proofs.Typing.Literals
import JavaLift.Proofs.Typing.Conflicts
import JavaLift.Proofs.Inline.Fixpoint
import JavaLift.Proofs.Hierarchy.Nearest
import JavaLift.Proofs.Text.Comment
import JavaLift.Proofs.Listing
import JavaLift.Proofs.Dalvik.Tiling
import JavaLift.Proofs.Source.Failure
import JavaLift.Proofs.Source.Positions
import JavaLift.Proofs.Source.Scopes
import JavaLift.Proofs.Source.Numbering
import JavaLift.Proofs.Catching
import JavaLift.Proofs.ClassFile.SeedOrder
import JavaLift.Proofs.Source.Referents
import JavaLift.Proofs.Region.Labelling
import JavaLift.Proofs.Flow.Ranges
import JavaLift.Proofs.Flow.Addresses
import JavaLift.Proofs.Fold.Shedding
import JavaLift.Proofs.Decompile.Shaping
import JavaLift.Proofs.Source.LabelLines
import JavaLift.Proofs.Source.Labelling
import JavaLift.Proofs.Source.Labels
import JavaLift.Proofs.Decompile.Labelling
import JavaLift.Proofs.NatSet.Agreement
import JavaLift.Proofs.Source.StringLiterals
import JavaLift.Proofs.Insn.Positions
import JavaLift.Proofs.Flow.SearchTree
