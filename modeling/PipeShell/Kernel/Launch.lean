import PipeShell.Kernel.System

/-! Becoming the program in a file. A file that starts with a header line names the program that it
is meant for, and that program gets the file as an argument. -/
namespace PipeShell

/-- The programs of a system: how one starts, and what it does next. Programs do nothing but make
calls and go on with the replies. -/
structure Machine (ι : Type) where
  load : (program : Bytes) → (argv : List Bytes) → ι
  move : ι → (c : Syscall) × (c.Reply → ι)

namespace Header

def window : Nat := 256

def dropBlanks (s : Bytes) : Bytes := s.dropWhile Byte.isBlank

def dropBlanksAtEnd (s : Bytes) : Bytes := (dropBlanks s.reverse).reverse

/-- The interpreter that a header line asks for, and its argument. A header that is cut off within
the interpreter's name is none. -/
def interpreter? (data : Bytes) : Option (Bytes × List Bytes) :=
  match data.take window with
  | 35 :: 33 :: s =>
    let line := s.takeWhile (· != Byte.newline)
    let named := dropBlanks line
    let name := named.takeWhile fun c => !Byte.isBlank c && c != Byte.nul
    let rest := dropBlanksAtEnd (dropBlanks (named.drop name.length))
    if name = [] ∨ (Byte.newline ∉ s ∧ name = named ∧ window ≤ data.length) then none
    else some (name, if rest = [] then [] else [rest])
  | _ => none

def depth : Nat := 5

end Header

namespace FileTree

def argumentLimit : Nat := 131071

def program (t : FileTree) (c : Credentials) (cwd : Nat) :
    (depth : Nat) → (path : Bytes) → (argv : List Bytes) → Except Errno (Bytes × List Bytes)
  | depth, path, argv => do
    let (_, inode) ← t.find c cwd path
    if !inode.grants c .execute then throw Errno.accessDenied
    match inode.content with
    | .image name =>
      if ∃ a ∈ argv, argumentLimit < a.length then throw Errno.tooBig
      return (name, argv)
    | .regular data => match Header.interpreter? data with
      | none => throw Errno.notExecutable
      | some (name, arguments) => match depth with
        | 0 => throw Errno.tooManyLinks
        | depth + 1 => program t c cwd depth name (name :: arguments ++ path :: argv.tail)
    | _ => throw Errno.accessDenied

end FileTree

end PipeShell
