/-
  The command-line program.
-/
import Arbor.CommandLine.Execute

set_option autoImplicit false

namespace Arbor.CommandLine

/-- Reads the file of an invocation. -/
def readFile (path : String) : IO (Except String String) := do
  try
    return .ok (← IO.FS.readFile path)
  catch e => return .error (toString e)

/-- Writes one dump into a directory, which is created; a failure is not reported. -/
def writeDump (dir : String) (dump : String × List String) : IO Unit := do
  try
    IO.FS.createDirAll dir
    IO.FS.writeFile (dir ++ "/" ++ dump.1) ("\n".intercalate dump.2 ++ "\n")
  catch _ => return ()

/-- Runs the program. -/
def runMain (args : List String) : IO UInt32 := do
  match read args with
  | .error refusal =>
      if refusal.isRequest then IO.println refusal.text else IO.eprintln refusal.text
      return refusal.exitCode
  | .ok invocation =>
      let content ← readFile (invocation.file.getD "")
      let outcome := invocation.execute content
      match invocation.dumpDir with
      | some dir => outcome.dumps.forM (writeDump dir)
      | none => pure ()
      for line in outcome.output do
        IO.println line
      match outcome.failure with
      | some failure => IO.eprintln failure.text
      | none => pure ()
      return outcome.exitCode

end Arbor.CommandLine

def main (args : List String) : IO UInt32 := Arbor.CommandLine.runMain args
