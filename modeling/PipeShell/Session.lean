import PipeShell.Shell.Repl
import PipeShell.World

/-! Sessions: a shell whose parts are used one at a time, with one state for all steps, and what can
be seen after each step. -/
namespace PipeShell

namespace Session

inductive Action
  /-- reads a line and carries it out -/
  | line (s : Bytes)
  | tree (l : CommandLine)
  | single (c : Command)
  | pipeline (l : CommandLine)
  | changeDirectory (arguments : List Bytes)
  | leave (arguments : List Bytes)
  | resolvable (name : Bytes)
  /-- opens the target of a redirection and writes to it -/
  | openTarget (r : Redirect) (data : Bytes)
  | takeStdout (r : Redirect)
  | silenceStderr (sink : Bytes)
  | setSearchPath (path : Option Bytes)
  | setNullSink (path : Bytes)
  deriving DecidableEq, Repr

inductive Restriction
  /-- no more descriptors than the three standard streams -/
  | noDescriptors
  /-- a user of its own, who can have so many more processes -/
  | stranger (processes : Nat)
  deriving DecidableEq, Repr

structure Step where
  restrictions : List Restriction
  action : Action
  deriving DecidableEq, Repr

inductive Result
  | status (n : UInt8)
  | noLine
  | refused (e : ParseError)
  | found (b : Bool)
  | done
  | failed (e : SetupError)
  deriving DecidableEq, Repr

open Program

def ofSetup : Except SetupError Unit → Result
  | .ok () => .done
  | .error e => .failed e

namespace Action

def run (s : State) : Action → Program (Result × State)
  | .line text => match parseLine text with
    | none => return (.noLine, s)
    | some (.error e) => return (.refused e, s)
    | some (.ok l) => do
      let (status, s) ← eval s l
      return (.status status, s)
  | .tree l => do
    let (status, s) ← eval s l
    return (.status status, s)
  | .single c => return (.status (← runSingle s c), s)
  | .pipeline l => return (.status (← runPipeline s l), s)
  | .changeDirectory arguments => return (.status (← Builtin.changeDirectory arguments), s)
  | .leave arguments => never (Builtin.leave arguments)
  | .resolvable name => return (.found (← Search.resolvable s.searchPath name), s)
  | .openTarget r data => do
    match ← r.openTarget with
    | .error e => return (.failed (.file e), s)
    | .ok fd =>
      let written : Except Errno Unit ← writeAll fd data
      let _ ← close fd
      match written with
      | .ok () => return (.done, s)
      | .error e => return (.failed (.file (.system e)), s)
  | .takeStdout r => return (ofSetup (← r.takeStdout), s)
  | .silenceStderr sink => return (ofSetup (← PipeShell.silenceStderr sink), s)
  | .setSearchPath path => return (.done, { s with searchPath := path })
  | .setNullSink path => return (.done, { s with nullSink := path })

end Action

/-- A system whose main process carries out actions. -/
abbrev Host := System (Program UInt8) (Result × State)

def strangerId : Nat := 54321

def abortStatus : UInt8 := 101

/-- Puts the main process under a restriction. Without the right to change its user it ends instead
of becoming a stranger. -/
def restrict (mayChangeUser : Bool) (h : Host) : Restriction → Host
  | .noDescriptors => h.modifyProcess World.mainPid fun p => { p with descriptorLimit := 3 }
  | .stranger n =>
    if mayChangeUser then h.modifyProcess World.mainPid fun p =>
      { p with
        credentials := { p.credentials with user := strangerId }
        processLimit := some (1 + n) }
    else h.finish World.mainPid (.exited abortStatus)

def release (h : Host) : Host :=
  h.modifyProcess World.mainPid fun p =>
    { p with
      descriptorLimit := World.descriptorLimit
      credentials := { p.credentials with user := 0 }
      processLimit := none }

inductive Outcome
  | result (r : Result)
  | ended (t : Termination)
  | stuck
  deriving DecidableEq, Repr

structure Entry where
  outcome : Outcome
  lastStatus : UInt8
  directory : Bytes
  output : Bytes
  errors : Bytes
  deriving DecidableEq, Repr

def step (mayChangeUser : Bool) (h : Host) (s : State) (x : Step) : Entry × Host × State :=
  let before := h
  let h := World.setProgram h (x.action.run s)
  let h := World.run (x.restrictions.foldl (restrict mayChangeUser) h)
  let (outcome, s) : Outcome × State := match World.termination? h with
    | some t => (.ended t, s)
    | none => match World.result? h with
      | some (r, s) => (.result r, s)
      | none => (.stuck, s)
  let directory := match h.process? World.mainPid with
    | some p => h.files.pathOf p.directory
    | none => []
  (⟨outcome, s.lastStatus, directory,
    (World.output h).drop (World.output before).length,
    (World.errors h).drop (World.errors before).length⟩, release h, s)

def steps (mayChangeUser : Bool) : List Step → Host → State → List Entry × Host
  | [], h, _ => ([], h)
  | x :: xs, h, s =>
    let (entry, h, s) := step mayChangeUser h s x
    match entry.outcome with
    | .result _ =>
      let (entries, h) := steps mayChangeUser xs h s
      (entry :: entries, h)
    | _ => ([entry], h)

def run (mayChangeUser : Bool) (settings : List Setting) (environment : Option Bytes)
    (searchPath : Option (Option Bytes)) (xs : List Step) : List Entry × FileTree :=
  let s := State.ofSearchPath (searchPath.getD environment)
  let h : Host := World.boot (World.furnish settings) environment .nothing (return (.done, s))
  let (entries, h) := steps mayChangeUser xs h s
  (entries, h.files)

end Session

end PipeShell
