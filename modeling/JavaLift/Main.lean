import JavaLift.CommandLine.Run

open JavaLift CommandLine

def readText (path : String) : IO (Option String) := do
  try
    return some (← IO.FS.readFile path)
  catch _ => return none

def carryOut : List Effect → IO (Option RunFault)
  | [] => return none
  | .print text :: rest => do
    IO.print text
    carryOut rest
  | .write path text :: rest => do
    try
      IO.FS.writeFile path text
    catch _ => return some (.unwritable path)
    carryOut rest

def report (fault : Option RunFault) : IO UInt32 := do
  match fault with
  | none => return 0
  | some f => do
    unless f.isFatal do IO.eprintln f.line
    return f.exitCode.toUInt32

def main (args : List String) : IO UInt32 := do
  match Invocation.ofArgs? args with
  | none => do
    IO.eprintln "invalid arguments"
    return usageExitCode.toUInt32
  | some i => do
    let texts ← i.inputs.mapM fun path => do return (path, ← readText path)
    match i.effects fun path => (texts.lookup path).join with
    | .error f => report (some f)
    | .ok effects => report (← carryOut effects)
