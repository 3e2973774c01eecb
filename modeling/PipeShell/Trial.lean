import PipeShell.Shell.Job
import PipeShell.Shell.Link
import PipeShell.World

/-! Jobs and links outside a shell: the parts of a pipeline, tried out one at a time. -/
namespace PipeShell.Trial

open Program

inductive Part
  | exit (code : Int32)
  /-- sends itself a signal -/
  | signal (n : Signal)
  | pause
  /-- exits after a while -/
  | lateExit (code : Int32)
  deriving DecidableEq, Repr

namespace Part

def delay : Nat := 40

def run : Part → Program Empty
  | .exit code => Program.exit code
  | .signal n => do
    let _ ← kill (← processId) n
    Program.exit 0
  | .pause => Program.pause
  | .lateExit code => do
    sleep delay
    Program.exit code

end Part

def forkAll : List Part → JobBuilder → Program (Except Errno JobBuilder)
  | [], b => return .ok b
  | part :: parts, b => do
    match ← b.pushFork with
    | .error e => return .error e
    | .ok (.child, _) => never part.run
    | .ok (.parent _, b) => forkAll parts b

structure View where
  job : Job
  error : Option Errno
  deriving DecidableEq, Repr

def waits : Nat → Job → Program (List View)
  | 0, _ => return []
  | n + 1, j => do
    let (j, e) ← j.wait
    return ⟨j, e⟩ :: (← waits n j)

def alarmPeriod : Nat := 4

inductive JobResult
  | waited (start : Job) (views : List View)
  | dropped (codes : List UInt8)
  | failed (e : Errno)
  deriving DecidableEq, Repr

def codes : List Stage → Program (List UInt8)
  | [] => return []
  | s :: ss => do
    let code : UInt8 := match ← waitFor s.pid with
      | .ok status => status.code
      | .error _ => 1
    return code :: (← codes ss)

def job (parts : List Part) (size waitCount : Nat) (interrupted : Bool) : Program JobResult := do
  match ← forkAll parts (JobBuilder.ofSize size) with
  | .error e => return .failed e
  | .ok b =>
    if parts.length = size then
      if interrupted then interval alarmPeriod
      return .waited b.build (← waits waitCount b.build)
    else
      b.abandon
      return .dropped (← codes b.stages)

/-- A source of links that counts its calls and fails at one of them. -/
def countedSource (failAt : Option Nat) (error : Errno) (calls : Nat) :
    Program (Except Errno Link × Nat) := do
  if failAt = some (calls + 1) then return (.error error, calls + 1)
  else return (← Link.create, calls + 1)

def echoAll (data : Bytes) : List Link → Program (List Bytes)
  | [] => return []
  | l :: ls => do
    let _ ← writeAll l.writeEnd data
    let _ ← close l.writeEnd
    let (echo, _) ← Utility.readAll l.readEnd
    let _ ← close l.readEnd
    return echo :: (← echoAll data ls)

def links (count : Nat) (failAt : Option Nat) (error : Errno) (data : Bytes) :
    Program (Nat × Except Errno (List Bytes)) := do
  match ← Link.openMany (countedSource failAt error) 0 count with
  | (.error e, calls) => return (calls, .error e)
  | (.ok ls, calls) => return (calls, .ok (← echoAll data ls))

def areOpen : List Link → Program (List (Bool × Bool))
  | [] => return []
  | l :: ls => do
    let r ← isOpen l.readEnd
    let w ← isOpen l.writeEnd
    return (r, w) :: (← areOpen ls)

def closing (count : Nat) :
    Program (Except Errno (List (Bool × Bool) × List (Bool × Bool))) := do
  match ← Link.openMany (countedSource none Errno.invalid) 0 count with
  | (.error e, _) => return .error e
  | (.ok ls, _) =>
    let before ← areOpen ls
    Link.closeAll ls
    let after ← areOpen ls
    Link.closeAll ls
    return .ok (before, after)

def result? {ρ : Type} (program : Program ρ) : Option ρ :=
  World.result? (World.run (World.boot World.installed (some World.searchPath) .nothing program))

end PipeShell.Trial
