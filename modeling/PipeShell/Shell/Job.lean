import PipeShell.Program

/-! Jobs: children forked together and waited for together. A job that is not completed terminates
the children it has; one that is completed waits for each child in turn, whatever the order in which
they end. -/
namespace PipeShell

open Program

structure Stage where
  pid : Pid
  index : Nat
  isTerminal : Bool
  status : Option WaitStatus
  deriving DecidableEq, Repr

/-- The status of a stage, 1 if it is not known. -/
def Stage.code (s : Stage) : UInt8 := s.status.elim 1 WaitStatus.code

structure Job where
  stages : List Stage
  deriving DecidableEq, Repr

structure JobBuilder where
  size : Nat
  stages : List Stage
  deriving DecidableEq, Repr

namespace JobBuilder

def ofSize (size : Nat) : JobBuilder := ⟨size, []⟩

/-- Forks the next stage. Both sides return; in the child a broken pipe has its usual effect again,
which it has not in the shell. -/
def pushFork (b : JobBuilder) : Program (Except Errno (ForkSide × JobBuilder)) := do
  match ← fork with
  | .error e => return .error e
  | .ok .child =>
    defaultBrokenPipe
    return .ok (.child, b)
  | .ok (.parent pid) =>
    let stage := ⟨pid, b.stages.length, b.stages.length + 1 == b.size, none⟩
    return .ok (.parent pid, { b with stages := b.stages ++ [stage] })

def build (b : JobBuilder) : Job := ⟨b.stages⟩

def terminateAll : List Stage → Program Unit
  | [] => return
  | s :: ss => do
    let _ ← kill s.pid Signal.terminate
    terminateAll ss

/-- Gives the job up: the stages forked so far are told to terminate, and are not waited for. -/
def abandon (b : JobBuilder) : Program Unit := terminateAll b.stages

end JobBuilder

def waitFor (pid : Pid) : Program (Except Errno WaitStatus) := do
  match ← wait pid with
  | .error e => return .error e
  | .ok t => match WaitStatus.ofTermination? t with
    | some s => return .ok s
    | none => return .error Errno.invalid

namespace Job

/-- Waits for the stages in order. The error is that of the first stage that could not be waited
for. -/
def waitStages : List Stage → Program (List Stage × Option Errno)
  | [] => return ([], none)
  | s :: ss => do
    match ← waitFor s.pid with
    | .ok status =>
      let (ss, e) ← waitStages ss
      return ({ s with status := some status } :: ss, e)
    | .error e =>
      let (ss, _) ← waitStages ss
      return (s :: ss, some e)

def wait (j : Job) : Program (Job × Option Errno) := do
  let (stages, e) ← waitStages j.stages
  return (⟨stages⟩, e)

def terminal (j : Job) : Option Stage := j.stages.find? (·.isTerminal)

def code (j : Job) : UInt8 := j.terminal.elim 1 Stage.code

end Job

end PipeShell
