import PipeShell.Program

/-! Which names can be launched, and how a name is launched. The first is asked before a lone
command is given a process of its own: it passes over empty components of the search path. The
second looks for the file along the search path of the environment, where an empty component is the
working directory. -/
namespace PipeShell.Search

open Program

def join (dir name : Bytes) : Bytes :=
  if dir.getLast? = some Byte.slash then dir ++ name else dir ++ Byte.slash :: name

def directories (path : Bytes) : List Bytes :=
  (path.splitOn Byte.colon).filter fun d => !d.isEmpty

def anyExecutable : List Bytes → Program Bool
  | [] => return false
  | p :: ps => do if ← executable p then return true else anyExecutable ps

def resolvable (path : Option Bytes) (name : Bytes) : Program Bool :=
  if name = [] then return false
  else if Byte.slash ∈ name then executable name
  else match path with
    | none => return false
    | some path => anyExecutable ((directories path).map (join · name))

def scriptShell : Bytes := Bytes.ofAscii "/bin/sh"

/-- Tries to become the program in one file. A file that is no program is handed to the script
shell. -/
def attempt (path : Bytes) (argv : List Bytes) : Program Errno := do
  let e ← exec path argv
  if e = Errno.notExecutable then exec scriptShell (scriptShell :: path :: argv.tail) else return e

/-- After these errors the search goes on. -/
def isPassedOver (e : Errno) : Bool :=
  e = Errno.accessDenied || e = Errno.noEntry || e = Errno.stale || e = Errno.notDirectory ||
    e = Errno.noDevice || e = Errno.timedOut

def pathLimit : Nat := 4096

def nameLimit : Nat := 255

def defaultPath : Bytes := Bytes.ofAscii "/bin:/usr/bin"

/-- Tries the components in order. `last` is the error to report if none is left, unless access was
denied before. A component of `limit` bytes or more counts as an empty one, and at the end of the
path as none. -/
def attemptAll (limit : Nat) (name : Bytes) (argv : List Bytes) :
    List Bytes → (denied : Bool) → (last : Errno) → Program Errno
  | [], denied, last => return if denied then Errno.accessDenied else last
  | d :: ds, denied, last => do
    if limit ≤ d.length ∧ ds = [] then return if denied then Errno.accessDenied else last
    let path := if d.isEmpty ∨ limit ≤ d.length then name else d ++ Byte.slash :: name
    let e ← attempt path argv
    if isPassedOver e then attemptAll limit name argv ds (denied || e = Errno.accessDenied) e
    else return e

def launch (name : Bytes) (argv : List Bytes) : Program Errno := do
  if name = [] then return Errno.noEntry
  if Byte.slash ∈ name then attempt name argv
  else do
    let path := (← environmentPath).getD defaultPath
    if nameLimit < name.length then return Errno.nameTooLong
    attemptAll (min path.length (pathLimit - 1) + 1) name argv (path.splitOn Byte.colon) false
      Errno.noEntry

end PipeShell.Search
