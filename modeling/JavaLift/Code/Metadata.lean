import JavaLift.Json.Basic

namespace JavaLift

inductive DeclKind where
  | cls | method | parameter | variable
deriving DecidableEq

/-- What a piece of text stands for: a declared name, or the instruction at an offset. -/
inductive Mark where
  | declaration (kind : DeclKind) (name : String)
  | offset (offset : Nat)
deriving DecidableEq

structure MetadataEntry where
  start : Nat
  stop : Nat
  mark : Mark
deriving DecidableEq

/-- The marked ranges of a text, and for its lines, counted from one, the source lines in increasing order. -/
structure Metadata where
  entries : Array MetadataEntry
  lines : List (Nat × Nat)
deriving DecidableEq

structure CodeText where
  code : String
  metadata : Metadata
deriving DecidableEq

namespace Metadata

def empty : Metadata := ⟨#[], []⟩

/-- The number of places from `base` on before the first one at which `p` fails, found by halving, among `size`
places on which `p` first holds and then fails. -/
def bisect (p : Nat → Bool) (base size : Nat) : Nat :=
  if size ≤ 1 then (if size = 1 && p base then base + 1 else base)
  else if p (base + size / 2) then bisect p (base + size / 2) (size - size / 2)
  else bisect p base (size - size / 2)
termination_by size

def at? (m : Metadata) (pos : Nat) : Option MetadataEntry :=
  let ends (i : Nat) : Bool := (m.entries[i]?).any fun e => e.stop ≤ pos
  (m.entries[bisect ends 0 m.entries.size]?).filter fun e => e.start ≤ pos

def positionOf? (m : Metadata) (offset : Nat) : Option Nat :=
  (m.entries.find? fun e => e.mark == .offset offset).map (·.start)

/-- The ranges are not empty, in order, and apart from each other. -/
def isExact (m : Metadata) : Bool :=
  m.entries.all (fun e => e.start < e.stop)
    && (m.entries.toList.zip m.entries.toList.tail).all fun (a, b) => a.stop ≤ b.start

def setLine (line source : Nat) : List (Nat × Nat) → List (Nat × Nat)
  | [] => [(line, source)]
  | (n, s) :: rest =>
    if line < n then (line, source) :: (n, s) :: rest
    else if line = n then (line, source) :: rest
    else (n, s) :: setLine line source rest

def setLineOnce (line source : Nat) (lines : List (Nat × Nat)) : List (Nat × Nat) :=
  if lines.any (·.1 == line) then lines else setLine line source lines

/-- Adds what stands where in another text that begins at `base`, after `lineBase` lines. -/
def append (m other : Metadata) (base lineBase : Nat) : Metadata :=
  { entries := m.entries ++ other.entries.map fun e => { e with start := e.start + base, stop := e.stop + base }
    lines := other.lines.foldl (fun lines (n, s) => setLine (n + lineBase) s lines) m.lines }

end Metadata

def DeclKind.name : DeclKind → String
  | .cls => "class"
  | .method => "method"
  | .parameter => "parameter"
  | .variable => "variable"

def Mark.toJson : Mark → Json
  | .declaration kind name =>
    .obj [("type", .str "declaration"), ("kind", .str kind.name), ("name", .str name)]
  | .offset n => .obj [("type", .str "offset"), ("offset", .ofNat n)]

def MetadataEntry.toJson (e : MetadataEntry) : Json :=
  .obj [("start", .ofNat e.start), ("end", .ofNat e.stop), ("annotation", e.mark.toJson)]

def Metadata.toJson (m : Metadata) : Json :=
  .obj [("entries", .ofList MetadataEntry.toJson m.entries.toList),
    ("lines", .obj (m.lines.map fun (n, s) => (toString n, .ofNat s)))]

end JavaLift
