import DrawScript.CommandLine.Run

/-!
# Entry point

Connects the command line tool to files, the standard streams and the exit code.
-/

namespace DrawScript.CommandLine

/-- The failure that an error of the system stands for, by its number. -/
def readFailureOf : IO.Error → ReadFailure
  | .inappropriateType _ code _ => if code = 21 then .isDirectory else .notADirectory
  | _ => .notFound

/-- The bytes of a file. -/
def readFileBytes (path : String) : IO (Except ReadFailure (List UInt8)) := do
  try
    return .ok (← IO.FS.readBinFile path).toList
  catch error => return .error (readFailureOf error)

/-- Files and the standard input of the process. -/
def system : World IO where
  fileBytes := readFileBytes
  inputBytes := return (← (← IO.getStdin).readBinToEnd).toList

end DrawScript.CommandLine

/-- Runs the tool on the arguments of the process. -/
def main (arguments : List String) : IO UInt32 := do
  let response ← DrawScript.CommandLine.run DrawScript.CommandLine.system arguments
  (← IO.getStderr).putStr response.stderr
  (← IO.getStdout).putStr response.stdout
  return response.code
