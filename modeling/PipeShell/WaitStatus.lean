import PipeShell.Builtin

/-! How a child process ended, or what else waiting for it may say, and the status that the shell
makes of it. -/
namespace PipeShell

abbrev Signal := Nat

namespace Signal

abbrev brokenPipe : Signal := 13
abbrev terminate : Signal := 15

def isNamed (n : Signal) : Bool := 1 ≤ n && n ≤ 31

def last : Signal := 64

end Signal

inductive Termination
  | exited (status : UInt8)
  | signaled (signal : Signal)
  deriving DecidableEq, Repr

inductive WaitStatus
  | exited (code : Int32)
  | signaled (signal : Signal) (coreDumped : Bool)
  | stopped (signal : Signal)
  | continued
  | stillAlive
  deriving DecidableEq, Repr

namespace WaitStatus

/-- The status in the shell's sense: the exit code, or 128 and the number of the signal; 1 if the
process has not ended. -/
def code : WaitStatus → UInt8
  | exited n => ExitCode.status n
  | signaled n _ => (128 + n).toUInt8
  | _ => 1

/-- The wait status of an ended process. A real-time signal cannot be told. -/
def ofTermination? : Termination → Option WaitStatus
  | .exited n => some (.exited n.toUInt32.toInt32)
  | .signaled n => if Signal.isNamed n then some (.signaled n false) else none

end WaitStatus

end PipeShell
