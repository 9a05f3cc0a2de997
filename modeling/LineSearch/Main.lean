import LineSearch.CommandLine.Program

namespace LineSearch.CommandLine

/-- A path that leads through a file fails when it is opened; a directory only when it is read, and
then no path is told. -/
def fileError : IO.Error → FileError
  | .noFileOrDirectory .. => .missing
  | .inappropriateType (some _) .. => .notDirectory
  | .inappropriateType none .. => .isDirectory
  | .permissionDenied .. => .notPermitted
  | .invalidArgument _ 22 _ => .nulInName
  | .invalidArgument .. => .nameTooLong
  | e => .other (toString e)

def readFile (path : String) : IO (Except FileError Text.Bytes) := do
  try
    return .ok (← IO.FS.readBinFile path).toList
  catch e =>
    return .error (fileError e)

def gather (arguments : List String) : IO Inputs := do
  let paths := match Arguments.parse arguments with
    | .ok a => a.paths
    | .error _ => []
  let standardInput ←
    if paths.any Path.isStandardInput then (← IO.getStdin).readBinToEnd else pure .empty
  let files ← (paths.filter (!Path.isStandardInput ·)).mapM (fun path ↦ do
    return (path, ← readFile path))
  return ⟨standardInput.toList, fun path ↦ (files.lookup path).getD (.error .missing)⟩

/-- Prints, and gives the exit status. That the reader of the output has gone away is no fault. -/
def print (output : IO.FS.Stream) (outcome : Outcome) : IO Nat := do
  try
    output.write outcome.output.toByteArray
    output.flush
    return outcome.code
  catch
    | .resourceVanished .. => return outcome.code
    | e =>
      (← IO.getStderr).putStr (errorTag false ++ " " ++ toString e ++ "\n")
      return 2

def perform (arguments : List String) : IO UInt32 := do
  let output ← IO.getStdout
  let outcome := run arguments (← output.isTty) (← gather arguments)
  (← IO.getStderr).putStr outcome.errors
  return (← print output outcome).toUInt32

end LineSearch.CommandLine

def main (arguments : List String) : IO UInt32 := LineSearch.CommandLine.perform arguments
