import PipeShell.Parser
import PipeShell.Shell.Eval

/-! The shell as a program of its own: it takes its input in chunks, evaluates the lines that are
complete, and at the end of the input leaves with the status of the last line. It reads more at once
than a chunk, and what it has not taken yet is out of reach for the programs that it runs. -/
namespace PipeShell

open Program

/-- A shell between two chunks, with the input that has been read ahead. -/
structure Repl where
  state : State
  parser : Parser
  ahead : Bytes
  interactive : Bool
  deriving DecidableEq, Repr

namespace Repl

def prompt : Bytes := Bytes.ofAscii "> "

def chunk : Nat := 4096

def block : Nat := 8192

def start : Program Repl := do
  let state ← State.initial
  return ⟨state, Parser.empty, [], ← isTerminal Fd.stdin⟩

def take (s : State) : Except ParseError CommandLine → Program State
  | .ok l => do return (← eval s l).2
  | .error e => do
    let _ ← writeAll Fd.stderr (Bytes.ofAscii ("msh: " ++ e.message ++ "\n"))
    return s

def runReady (r : Repl) : Program Repl := do
  let (xs, parser) := r.parser.popAll
  return { r with state := ← xs.foldlM take r.state, parser }

def leave (r : Repl) : Program Empty := do
  let r ← runReady { r with parser := r.parser.finish }
  exit r.state.lastStatus.toUInt32.toInt32

/-- More input. There is a read only if all has been taken that was read before. -/
def input (r : Repl) : Program (Except Errno Bytes) :=
  if r.ahead = [] then read Fd.stdin block else return .ok r.ahead

/-- One chunk and what follows from it. An interrupted read changes nothing; any other error ends
the input. -/
def turn (r : Repl) : Program Repl := do
  if r.interactive then
    let _ ← writeAll Fd.stdout prompt
  match ← r.input with
  | .ok [] => never r.leave
  | .ok s => runReady { r with parser := r.parser.feed (s.take chunk), ahead := s.drop chunk }
  | .error e => if e = Errno.interrupted then return r else never r.leave

end Repl

end PipeShell
