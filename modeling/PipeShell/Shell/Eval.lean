import PipeShell.Builtin
import PipeShell.Shell.Job
import PipeShell.Shell.Link
import PipeShell.Shell.Redirection
import PipeShell.Shell.Search

/-! Evaluation of command lines. A lone built-in acts in the shell, a lone external command in one
child, a redirected command in one child as well, and a pipeline in as many children as it has
commands. -/
namespace PipeShell

open Program

/-- What evaluation needs from its surroundings, and the status of the last line. -/
structure State where
  searchPath : Option Bytes
  nullSink : Bytes
  lastStatus : UInt8
  deriving DecidableEq, Repr

namespace State

def ofSearchPath (path : Option Bytes) : State := ⟨path, Bytes.ofAscii "/dev/null", 0⟩

def initial : Program State := return ofSearchPath (← environmentPath)

end State

def report (what : String) (e : Errno) : Program Unit := do
  let _ ← writeAll Fd.stderr (Bytes.ofAscii ("msh: " ++ what ++ ": " ++ e.report ++ "\n"))

namespace Builtin

def changeDirectory (arguments : List Bytes) : Program UInt8 := do
  match ← chdir (arguments.headD (Bytes.ofAscii ".")) with
  | .ok () => return 0
  | .error _ => return 1

def leave (arguments : List Bytes) : Program Empty :=
  Program.exit (ExitCode.ofArguments arguments)

end Builtin

namespace Command

def builtin? (c : Command) : Option Builtin := Builtin.ofName? c.name

/-- Becomes the program of an external command, with standard error silenced; returns only if that
fails. -/
def become (s : State) (c : Command) : Program SetupError := do
  match ← silenceStderr s.nullSink with
  | .error e => return e
  | .ok () =>
    if Byte.nul ∈ c.name ∨ ∃ a ∈ c.arguments, Byte.nul ∈ a then return .nulByte
    return .system (← Search.launch c.name (c.name :: c.arguments))

/-- Runs a command in a forked child whose streams are wired. Before the last stage of a pipeline,
`exit` closes its output first. -/
def runInChild (s : State) (c : Command) (isTerminal : Bool) : Program Empty :=
  match c.builtin? with
  | some .exit => do
    unless isTerminal do
      let _ ← close Fd.stdout
    Builtin.leave c.arguments
  | some .cd => do exit (← Builtin.changeDirectory c.arguments).toUInt32.toInt32
  | none => do
    let _ ← become s c
    exit 1

end Command

def forkAndWait (child : Program Empty) : Program UInt8 := do
  match ← (JobBuilder.ofSize 1).pushFork with
  | .error e =>
    report "fork" e
    return 1
  | .ok (.child, _) => never child
  | .ok (.parent _, b) =>
    let (job, e) ← b.build.wait
    if let some e := e then report "wait" e
    return job.code

def runSingle (s : State) (c : Command) : Program UInt8 :=
  match c.builtin? with
  | some .cd => Builtin.changeDirectory c.arguments
  | some .exit => never (Builtin.leave c.arguments)
  | none => do
    if ← Search.resolvable s.searchPath c.name then forkAndWait (c.runInChild s true)
    else return 1

/-- The child of a redirected command. The target is opened before it is known whether the command
can be launched. -/
def redirectedChild (s : State) (c : Command) (r : Redirect) : Program Empty := do
  let _ ← silenceStderr s.nullSink
  match ← r.takeStdout with
  | .error _ => exit 1
  | .ok () =>
    let launchable ← if c.builtin? = none then Search.resolvable s.searchPath c.name else pure true
    if launchable then c.runInChild s true else exit 1

def runRedirected (s : State) (c : Command) (r : Redirect) : Program UInt8 :=
  forkAndWait (redirectedChild s c r)

/-- Wires the streams of a stage: its input to the link before it, its output to the link after it
or, if there is none, to the target of the redirection. -/
def wireStage (before after : Option Link) (r : Option Redirect) :
    Program (Except SetupError Unit) := do
  let input : Except Errno Unit ← match before with
    | some l => dup2 l.readEnd Fd.stdin
    | none => pure (.ok ())
  match input with
  | .error e => return .error (.system e)
  | .ok () => match after, r with
    | some l, _ => match ← dup2 l.writeEnd Fd.stdout with
      | .error e => return .error (.system e)
      | .ok () => return .ok ()
    | none, some r => r.takeStdout
    | none, none => return .ok ()

def stageChild (s : State) (links : List Link) (r : Option Redirect) (n i : Nat) (c : Command) :
    Program Empty := do
  let before := if i = 0 then none else links[i - 1]?
  let wired ← wireStage before links[i]? r
  Link.closeAll links
  match wired with
  | .error _ => exit 1
  | .ok () => c.runInChild s (i + 1 == n)

/-- Forks the stages of a pipeline from left to right. If one cannot be forked, those before it are
told to terminate. -/
def spawnStages (s : State) (commands : List Command) (links : List Link) (r : Option Redirect) :
    Program (Except Errno Job) := go (JobBuilder.ofSize commands.length) 0 commands
where
  go (b : JobBuilder) (i : Nat) : List Command → Program (Except Errno Job)
    | [] => return .ok b.build
    | c :: cs => do
      match ← b.pushFork with
      | .error e =>
        b.abandon
        return .error e
      | .ok (.child, _) => never (stageChild s links r commands.length i c)
      | .ok (.parent _, b) => go b (i + 1) cs

/-- The status of a pipeline: what the last `exit` in it asks for, wherever it stands, and without
one the status of the terminal stage. -/
def pipelineStatus (commands : List Command) (terminal : UInt8) : UInt8 :=
  match (commands.filter fun c => c.builtin? = some .exit).getLast? with
  | some c => ExitCode.status (ExitCode.ofArguments c.arguments)
  | none => terminal

def runPipelineWith {σ : Type} (source : σ → Program (Except Errno Link × σ)) (start : σ)
    (s : State) (l : CommandLine) : Program UInt8 :=
  if l.commands = [] then return 0
  else do
    match ← Link.openMany source start (l.commands.length - 1) with
    | (.error e, _) =>
      report "pipe" e
      return 1
    | (.ok links, _) => match ← spawnStages s l.commands links l.redirect with
      | .error e =>
        report "fork" e
        Link.closeAll links
        return 1
      | .ok job =>
        Link.closeAll links
        let (job, e) ← job.wait
        if let some e := e then report "wait" e
        return pipelineStatus l.commands job.code

def runPipeline (s : State) (l : CommandLine) : Program UInt8 :=
  runPipelineWith (fun () => return (← Link.create, ())) () s l

def runLine (s : State) (l : CommandLine) : Program UInt8 :=
  if l.hasPipes then runPipeline s l
  else match l.commands, l.redirect with
    | [], _ => return 0
    | c :: _, some r => runRedirected s c r
    | c :: _, none => runSingle s c

/-- Carries out a line and gives its status. A lone `exit` ends the shell, even with a redirection;
a lone `cd` acts in the shell only without one. -/
def evalLine (s : State) (l : CommandLine) : Program UInt8 :=
  match l.soleCommand with
  | some c => match c.builtin?, l.redirect with
    | some .exit, _ => never (Builtin.leave c.arguments)
    | some .cd, none => Builtin.changeDirectory c.arguments
    | _, _ => runLine s l
  | none => runLine s l

def eval (s : State) (l : CommandLine) : Program (UInt8 × State) := do
  let status ← evalLine s l
  return (status, { s with lastStatus := status })

end PipeShell
