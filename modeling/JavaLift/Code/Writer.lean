import JavaLift.Code.Metadata

namespace JavaLift

/-- A text in the making: the width and the number of indentation steps, the number of the present line, whether
it has not been begun, the open marks, the innermost first, and the position up to which ranges have been
recorded. -/
structure Writer where
  indent : Nat
  depth : Nat
  code : String
  line : Nat
  fresh : Bool
  opened : List Mark
  recorded : Nat
  metadata : Metadata

namespace Writer

def start (indent depth : Nat) : Writer := ⟨indent, depth, "", 1, true, [], 0, .empty⟩

def pos (w : Writer) : Nat := w.code.utf8ByteSize

def deeper (w : Writer) : Writer := { w with depth := w.depth + 1 }

def shallower (w : Writer) : Writer := { w with depth := w.depth - 1 }

/-- Adds text without a look at the line. -/
def push (w : Writer) (text : String) : Writer := { w with code := w.code ++ text }

def newline (w : Writer) : Writer := { w.push "\n" with line := w.line + 1, fresh := true }

def startLine (w : Writer) : Writer :=
  let w := if w.fresh then w else w.newline
  { w.push (String.ofList (List.replicate (w.depth * w.indent) ' ')) with fresh := false }

/-- Begins the present line before text is added, if it has not been begun. -/
def ready (w : Writer) (text : String) : Writer := if w.fresh && !text.isEmpty then w.startLine else w

def add (w : Writer) (text : String) : Writer := (w.ready text).push text

def addLine (w : Writer) (text : String) : Writer := w.startLine.push text

/-- Adds a range, joined with the last one if that ends where it begins and means the same. -/
def joinEntry (entries : Array MetadataEntry) (e : MetadataEntry) : Array MetadataEntry :=
  match entries.back? with
  | some last =>
    if last.stop = e.start ∧ last.mark = e.mark then entries.pop.push { last with stop := e.stop }
    else entries.push e
  | none => entries.push e

/-- Records what has been written since the last time, for the innermost open mark. -/
def record (w : Writer) : Writer :=
  let entries := match w.opened with
    | [] => w.metadata.entries
    | top :: _ =>
      if w.recorded < w.pos then joinEntry w.metadata.entries ⟨w.recorded, w.pos, top⟩ else w.metadata.entries
  { w with metadata := { w.metadata with entries := entries }, recorded := w.pos }

def begin (w : Writer) (a : Mark) : Writer := { w.record with opened := a :: w.opened }

def close (w : Writer) : Writer := { w.record with opened := w.opened.tail }

def addMarked (w : Writer) (text : String) (a : Mark) : Writer :=
  (((w.ready text).begin a).push text).close

def attachSource (w : Writer) (source : Nat) : Writer :=
  { w with metadata := { w.metadata with lines := Metadata.setLineOnce w.line source w.metadata.lines } }

def finish (w : Writer) : CodeText :=
  let w := w.opened.foldl (fun w _ => w.close) w
  ⟨w.code, w.metadata⟩

def addFailure (w : Writer) (reason : String) (listing : List String) : Writer :=
  let w := (w.addLine "/*").addLine (" * Method decompilation failed: " ++ reason)
  let w := if listing.isEmpty then w else listing.foldl (fun w line => w.addLine (" *   " ++ line)) (w.addLine " *")
  w.addLine " */"

end Writer

end JavaLift
