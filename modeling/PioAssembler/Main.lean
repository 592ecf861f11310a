import PioAssembler.CommandLine.Run

/-!
# The executable
-/

open PioAssembler

/-- Runs the command line and carries out what it asks for. -/
def main (args : List String) : IO UInt32 := do
  let outcome := CommandLine.run args
  match outcome.file with
  | none => pure ()
  | some (path, bytes) => IO.FS.writeBinFile path bytes
  let stdout ← IO.getStdout
  stdout.write outcome.stdout
  stdout.flush
  let stderr ← IO.getStderr
  stderr.putStr outcome.stderr
  return outcome.exitCode
