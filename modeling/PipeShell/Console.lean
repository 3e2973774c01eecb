import PipeShell.Shell.Repl
import PipeShell.World

/-! The shell as the main process of a system, with an input that may still be growing. -/
namespace PipeShell.Console

abbrev Host := System (Program UInt8) Repl

def boot (settings : List Setting) (environment : Option Bytes) (input : World.Input) : Host :=
  World.boot (World.furnish settings) environment input Repl.start

/-- Runs until the shell has ended or waits for input. `rounds` bounds the number of its reads. -/
def run : (rounds : Nat) → Host → Host
  | 0, h => h
  | rounds + 1, h =>
    let h := World.run h
    match World.result? h with
    | some r => run rounds (World.setProgram h r.turn)
    | none => h

def feed (h : Host) (data : Bytes) : Host :=
  match h.sources.get? 0 with
  | some s => { h with sources := h.sources.set 0 { s with pending := s.pending ++ [data] } }
  | none => h

def close (h : Host) : Host :=
  match h.sources.get? 0 with
  | some s => { h with sources := h.sources.set 0 { s with closed := true } }
  | none => h

def terminal (typed : Bytes) : Source :=
  let lines := Utility.lines typed
  let whole := typed.getLast? = some Byte.newline
  let read := lines.map (· ++ [Byte.newline])
  ⟨if whole then read else read.dropLast ++ lines.getLast?.toList, true, true⟩

structure Report where
  termination : Option Termination
  output : Bytes
  errors : Bytes
  files : FileTree

def report (settings : List Setting) (environment : Option Bytes) (input : World.Input) : Report :=
  let h := run World.patience (boot settings environment input)
  ⟨World.termination? h, World.output h, World.errors h, h.files⟩

end PipeShell.Console
