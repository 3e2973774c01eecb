import PipeShell.Bytes

/-! Command lines: commands and pipe operators in a row, with at most one redirection of the output.
The type admits every sequence of nodes; a line made by the parser alternates commands and pipes. -/
namespace PipeShell

inductive RedirectMode
  | truncate
  | append
  deriving DecidableEq, Repr

structure Redirect where
  target : Bytes
  mode : RedirectMode
  deriving DecidableEq, Repr

structure Command where
  name : Bytes
  arguments : List Bytes
  deriving DecidableEq, Repr

inductive Node
  | command (c : Command)
  | pipe
  deriving DecidableEq, Repr

structure CommandLine where
  nodes : List Node
  redirect : Option Redirect
  deriving DecidableEq, Repr

def Node.command? : Node → Option Command
  | .command c => some c
  | .pipe => none

namespace CommandLine

def commands (l : CommandLine) : List Command := l.nodes.filterMap Node.command?

/-- Whether some command stands directly before a pipe operator. -/
def hasPipes (l : CommandLine) : Bool := go l.nodes
where
  go : List Node → Bool
    | .command _ :: .pipe :: _ => true
    | _ :: nodes => go nodes
    | [] => false

/-- The command of a line that has one node and no more. -/
def soleCommand (l : CommandLine) : Option Command :=
  match l.nodes with
  | [.command c] => some c
  | _ => none

end CommandLine

end PipeShell
