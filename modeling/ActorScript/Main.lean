import ActorScript.Command.Run

/-! # The command line
-/

namespace ActorScript.Command

def refusal (e : IO.Error) : String :=
  match e with
  | .noFileOrDirectory .. => "No such file or directory (os error 2)"
  | .permissionDenied .. => "Permission denied (os error 13)"
  | .inappropriateType .. => "Is a directory (os error 21)"
  | other => toString other

def readText (path : String) : IO (Except String String) := do
  try
    let bytes ← IO.FS.readBinFile path
    match String.fromUTF8? bytes with
    | some text => return .ok text
    | none => return .error "stream did not contain valid UTF-8"
  catch e =>
    return .error (refusal e)

end ActorScript.Command

open ActorScript

/-- Reads the files a command line names, runs it and prints what it leaves behind. -/
def main (args : List String) : IO UInt32 := do
  let paths := match Command.ofArguments args with
    | .ok c => c.files
    | .error _ => []
  let texts ← paths.mapM fun path => return (path, ← Command.readText path)
  let files (path : String) := (texts.lookup path).getD (.error "not read")
  let outcome := Command.run files (← (← IO.getStderr).isTty) args
  IO.eprint outcome.err
  IO.print outcome.out
  return UInt32.ofNat outcome.exit
