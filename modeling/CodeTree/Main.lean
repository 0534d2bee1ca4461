/-
The command line: reads the file that the arguments name, prints the answer and exits
with its status.
-/

import CodeTree.Command.Arguments

namespace CodeTree

/-- Reads a file. -/
def readContent (path : String) : IO FileContent := do
  try
    return .bytes (← IO.FS.readBinFile path)
  catch error =>
    match error with
    | .noFileOrDirectory _ _ _ => return .missing
    | .inappropriateType _ code details => return .unreadable s!"{details} (os error {code})"
    | .permissionDenied _ code details => return .unreadable s!"{details} (os error {code})"
    | other => return .unreadable (toString other)

end CodeTree

open CodeTree in
def main (arguments : List String) : IO UInt32 := do
  let request := Arguments.parse arguments
  let content ← match request.file? with
    | some path => readContent path
    | none => pure .missing
  let answer := request.answer content
  let output ← IO.getStdout
  output.putStr answer.output
  output.flush
  return UInt32.ofNat answer.exit
