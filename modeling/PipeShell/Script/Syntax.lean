import PipeShell.Program

/-! The language of scripts: words with expansions, redirections, and commands. -/
namespace PipeShell.Script

inductive Part
  | text (s : Bytes)
  | parameter (name : Bytes) (quoted : Bool)
  deriving DecidableEq, Repr

/-- A word. One without parts is written by a pair of quotes. -/
abbrev Word := List Part

inductive Target
  | input (w : Word)
  | output (mode : RedirectMode) (w : Word)
  /-- the file that another descriptor, given by its number, refers to -/
  | duplicate (w : Word)
  deriving DecidableEq, Repr

structure Redirection where
  fd : Fd
  target : Target
  deriving DecidableEq, Repr

inductive Command
  | nothing
  | simple (assignments : List (Bytes × Word)) (words : List Word) (redirections : List Redirection)
  /-- in a process of its own -/
  | subshell (body : Command)
  | pipeline (first rest : Command)
  | background (c : Command)
  | negation (c : Command)
  | conjunction (a b : Command)
  | disjunction (a b : Command)
  | sequence (a b : Command)
  /-- repeats `body` as long as `condition` succeeds, or fails -/
  | loop (success : Bool) (condition body : Command)
  | branch (condition yes no : Command)
  | each (name : Bytes) (words : List Word) (body : Command)
  /-- the place of a mistake -/
  | invalid
  deriving DecidableEq, Repr

end PipeShell.Script
