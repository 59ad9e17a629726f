import LiveMarkup.CommandLine.Run

/-!
The program: it reads the files that its arguments name, and prints what comes of them.
-/

open LiveMarkup.CommandLine

/-- A folder can be opened and fails when it is read; only then is there a plain code. -/
def unreadableOf : IO.Error → Unreadable
  | .inappropriateType _ code _ => if code = 21 then .folder else .notFolder
  | .permissionDenied .. => .denied
  | .invalidArgument .. => .nameTooLong
  | _ => .missing

def readContent (path : String) : IO Content := do
  try
    let bytes ← IO.FS.readBinFile path
    return (String.fromUTF8? bytes).elim (.error .notText) .ok
  catch e =>
    return .error (unreadableOf e)

def filesOf (contents : List (String × Content)) : Files := fun path =>
  (contents.lookup path).getD (.error .missing)

def main (arguments : List String) : IO UInt32 := do
  let contents ← (paths arguments).mapM fun path => do
    let content ← readContent path
    return (path, content)
  let outcome := run (filesOf contents) arguments
  IO.print outcome.output
  match outcome.failure with
  | some failure => IO.eprintln ("error: " ++ failure)
  | none => pure ()
  return outcome.code.toUInt32
