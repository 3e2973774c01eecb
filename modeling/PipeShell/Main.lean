import PipeShell.Console

/-! The command line: a shell in a small installed system, fed with standard input. -/
namespace PipeShell.Console

def sayNew (stream : IO.FS.Stream) (text : Bytes) (before : Nat) : IO Unit := do
  stream.write ⟨(text.drop before).toArray⟩
  stream.flush

def exitCode : Termination → UInt32
  | .exited status => status.toUInt32
  | .signaled n => (128 + n).toUInt32

/-- Runs the shell, says what it says, and gives it more input whenever it waits for some. -/
partial def converse (input output errors : IO.FS.Stream) (h : Host) : IO UInt32 := do
  let outputSize := (World.output h).length
  let errorSize := (World.errors h).length
  let h := run World.patience h
  sayNew output (World.output h) outputSize
  sayNew errors (World.errors h) errorSize
  match World.termination? h with
  | some t => return exitCode t
  | none =>
    let data ← input.read 4096
    converse input output errors (if data.isEmpty then close h else feed h data.toList)

end PipeShell.Console

def main : IO UInt32 := do
  let input ← IO.getStdin
  let source : PipeShell.Source := ⟨[], false, ← input.isTty⟩
  let host := PipeShell.Console.boot [] (some PipeShell.World.searchPath) (.source source)
  PipeShell.Console.converse input (← IO.getStdout) (← IO.getStderr) host
