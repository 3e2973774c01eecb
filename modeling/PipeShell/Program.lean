import PipeShell.Errno
import PipeShell.WaitStatus
import PipeShell.CommandLine

/-! Programs as trees of calls to the operating system. A program is either done, or it makes a call
and goes on with the reply. What the calls do is not said here: the same tree can be run by a model
of the operating system, and it can be followed along any replies whatever. -/
namespace PipeShell

abbrev Fd := Nat

abbrev Pid := Nat

namespace Fd

abbrev stdin : Fd := 0
abbrev stdout : Fd := 1
abbrev stderr : Fd := 2

end Fd

inductive ForkSide
  | child
  | parent (child : Pid)
  deriving DecidableEq, Repr

inductive OpenMode
  /-- an existing file, to be read -/
  | read
  /-- an existing file, to be written from its start on -/
  | write
  /-- a file to be written, made if it is missing -/
  | create (mode : RedirectMode)
  deriving DecidableEq, Repr

/-- What a process can ask about an open file: which file it is if it is one on disk, its size, and
where the next byte would be written. -/
structure FileStat where
  file : Option Nat
  size : Nat
  position : Nat
  deriving DecidableEq, Repr

inductive Syscall
  /-- ends the process -/
  | exit (code : Int32)
  | fork
  /-- becomes the program in a file -/
  | exec (path : Bytes) (argv : List Bytes)
  /-- waits until a child has ended -/
  | wait (child : Pid)
  | kill (process : Pid) (signal : Signal)
  /-- waits for a signal that ends the process -/
  | pause
  /-- gives a broken pipe its usual effect, the end of the process -/
  | defaultBrokenPipe
  | pipe
  | dup2 (source target : Fd)
  | close (fd : Fd)
  | isOpen (fd : Fd)
  | openFile (path : Bytes) (mode : OpenMode)
  | read (fd : Fd) (count : Nat)
  | write (fd : Fd) (data : Bytes)
  | isTerminal (fd : Fd)
  | stat (fd : Fd)
  | chdir (path : Bytes)
  | workingDirectory
  /-- asks whether the process may execute a file -/
  | access (path : Bytes)
  | listDirectory (path : Bytes)
  /-- the search path in the environment -/
  | environmentPath
  | processId
  /-- the time in milliseconds -/
  | clock
  | sleepUntil (time : Nat)
  /-- asks for an alarm every so many milliseconds, which does nothing but interrupt -/
  | interval (period : Nat)
  deriving DecidableEq, Repr

def Syscall.Reply : Syscall → Type
  | exit _ => Empty
  | fork => Except Errno ForkSide
  | exec _ _ => Errno
  | wait _ => Except Errno Termination
  | kill _ _ => Except Errno Unit
  | pause => Empty
  | defaultBrokenPipe => Unit
  | pipe => Except Errno (Fd × Fd)
  | dup2 _ _ => Except Errno Unit
  | close _ => Except Errno Unit
  | isOpen _ => Bool
  | openFile _ _ => Except Errno Fd
  | read _ _ => Except Errno Bytes
  | write _ _ => Except Errno Nat
  | isTerminal _ => Bool
  | stat _ => Except Errno FileStat
  | chdir _ => Except Errno Unit
  | workingDirectory => Bytes
  | access _ => Except Errno Unit
  | listDirectory _ => Except Errno (List Bytes)
  | environmentPath => Option Bytes
  | processId => Pid
  | clock => Nat
  | sleepUntil _ => Unit
  | interval _ => Unit

/-- A program that returns an `α`. In `call c again k` the call `c` is made, and made once more
whenever `again` says so of its reply; `k` goes on with the first reply it does not. -/
inductive Program (α : Type)
  | done (a : α)
  | call (c : Syscall) (again : c.Reply → Bool) (k : c.Reply → Program α)

namespace Program

def bind {α β : Type} (p : Program α) (f : α → Program β) : Program β :=
  match p with
  | done a => f a
  | call c again k => call c again fun r => (k r).bind f

instance : Monad Program where
  pure := done
  bind := bind

@[simp] theorem pure_eq {α : Type} (a : α) : (pure a : Program α) = done a := rfl

@[simp] theorem done_bind {α β : Type} (a : α) (f : α → Program β) : done a >>= f = f a := rfl

@[simp] theorem call_bind {α β : Type} (c : Syscall) (again : c.Reply → Bool)
    (k : c.Reply → Program α) (f : α → Program β) :
    call c again k >>= f = call c again fun r => k r >>= f := rfl

theorem bind_done {α : Type} (p : Program α) : p >>= done = p := by
  induction p with
  | done a => rfl
  | call c again k ih => rw [call_bind]; exact congrArg _ (funext ih)

theorem bind_assoc {α β γ : Type} (p : Program α) (f : α → Program β) (g : β → Program γ) :
    p >>= f >>= g = p >>= fun a => f a >>= g := by
  induction p with
  | done a => rfl
  | call c again k ih => simp only [call_bind]; exact congrArg _ (funext ih)

instance : LawfulMonad Program :=
  LawfulMonad.mk' Program (fun p => bind_done p) (fun _ _ => rfl) bind_assoc

def ask (c : Syscall) : Program c.Reply := call c (fun _ => false) done

/-- A program that never returns may stand for any. -/
def never {α : Type} (p : Program Empty) : Program α := p >>= nofun

def exit (code : Int32) : Program Empty := ask (.exit code)

def fork : Program (Except Errno ForkSide) := ask .fork

def exec (path : Bytes) (argv : List Bytes) : Program Errno := ask (.exec path argv)

def interrupted {α : Type} : Except Errno α → Bool
  | .error e => e = Errno.interrupted
  | .ok _ => false

def wait (child : Pid) : Program (Except Errno Termination) :=
  call (.wait child) interrupted done

def kill (process : Pid) (signal : Signal) : Program (Except Errno Unit) :=
  ask (.kill process signal)

def pause : Program Empty := ask .pause

def defaultBrokenPipe : Program Unit := ask .defaultBrokenPipe

/-- Opens a pipe whose ends are closed by `exec`: the read end and the write end. -/
def pipe : Program (Except Errno (Fd × Fd)) := ask .pipe

def dup2 (source target : Fd) : Program (Except Errno Unit) := ask (.dup2 source target)

def close (fd : Fd) : Program (Except Errno Unit) := ask (.close fd)

def isOpen (fd : Fd) : Program Bool := ask (.isOpen fd)

def read (fd : Fd) (count : Nat) : Program (Except Errno Bytes) := ask (.read fd count)

def write (fd : Fd) (data : Bytes) : Program (Except Errno Nat) :=
  call (.write fd data) interrupted done

/-- Writes all of `data`, in as many pieces as it takes. -/
def writeAll (fd : Fd) (data : Bytes) : Program (Except Errno Unit) :=
  if data = [] then return .ok ()
  else do
    match ← write fd data with
    | .error e => return .error e
    | .ok 0 => return .error Errno.noSpace
    | .ok (k + 1) => writeAll fd (data.drop (k + 1))
termination_by data.length
decreasing_by
  have := List.length_pos_iff.2 ‹¬data = []›
  rw [List.length_drop]
  omega

def isTerminal (fd : Fd) : Program Bool := ask (.isTerminal fd)

def stat (fd : Fd) : Program (Except Errno FileStat) := ask (.stat fd)

def openFile (path : Bytes) (mode : OpenMode) : Program (Except Errno Fd) :=
  call (.openFile path mode) interrupted done

def chdir (path : Bytes) : Program (Except Errno Unit) :=
  if Byte.nul ∈ path then done (.error Errno.invalid) else ask (.chdir path)

def workingDirectory : Program Bytes := ask .workingDirectory

def executable (path : Bytes) : Program Bool :=
  if Byte.nul ∈ path then done false
  else do
    match ← (ask (.access path) : Program (Except Errno Unit)) with
    | .ok () => return true
    | .error _ => return false

def listDirectory (path : Bytes) : Program (Except Errno (List Bytes)) := ask (.listDirectory path)

def environmentPath : Program (Option Bytes) := ask .environmentPath

def processId : Program Pid := ask .processId

def interval (period : Nat) : Program Unit := ask (.interval period)

def sleep (time : Nat) : Program Unit := do
  let now : Nat ← ask .clock
  ask (.sleepUntil (now + time))

end Program

end PipeShell
