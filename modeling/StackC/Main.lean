import StackC.CommandLine

/-! The compiler as a program: its arguments go in, two texts and a status come out. -/
open StackC

/-- Messages are in color only where the caller asks for it. -/
def main (args : List String) : IO UInt32 := do
  let outcome := CommandLine.run false (args.map fun a => a.toUTF8.toList)
  let write (h : IO.FS.Stream) (t : Bytes) : IO Unit := do
    h.write ⟨t.toArray⟩
    h.flush
  write (← IO.getStderr) outcome.stderr
  write (← IO.getStdout) outcome.stdout
  return outcome.status.toUInt32
