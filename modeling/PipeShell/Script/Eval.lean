import PipeShell.Script.Parser
import PipeShell.Shell.Search
import PipeShell.Utility.Output

/-! Running scripts. Built-in commands act in the process itself, with their redirections undone
afterwards; other commands are launched in a child that is waited for. -/
namespace PipeShell.Script

open Program

structure Env where
  /-- the name of the script -/
  name : Bytes
  arguments : List Bytes
  process : Pid
  status : UInt8
  /-- the children that were not waited for -/
  background : List Pid
  bindings : List (Bytes × Bytes)
  deriving DecidableEq, Repr

/-- What comes after a command: the next one, or the end of the script with a status. -/
inductive Flow
  | next (e : Env)
  | leave (status : UInt8)
  deriving DecidableEq, Repr

namespace Env

def withStatus (e : Env) (status : UInt8) : Env := { e with status }

def assign (e : Env) (name value : Bytes) : Env :=
  { e with bindings := (name, value) :: e.bindings.filter (·.1 ≠ name) }

def value (e : Env) (name : Bytes) : Bytes :=
  match name with
  | [35] => Bytes.ofNat e.arguments.length
  | [36] => Bytes.ofNat e.process
  | [63] => Bytes.ofNat e.status.toNat
  | _ => match Bytes.toNat? name with
    | some 0 => e.name
    | some (n + 1) => e.arguments.getD n []
    | none => (e.bindings.lookup name).getD []

end Env

/-- The fields of a word so far; the last one may grow. -/
structure Fields where
  /-- newest first -/
  closed : List Bytes
  current : Option Bytes
  deriving DecidableEq, Repr

namespace Fields

def add (f : Fields) (s : Bytes) : Fields := { f with current := some (f.current.getD [] ++ s) }

def close (f : Fields) : Fields := ⟨f.current.toList ++ f.closed, none⟩

def split (f : Fields) (s : Bytes) : Fields :=
  s.foldl (fun f c =>
    if Byte.isBlank c || c == Byte.newline then f.close else f.add [c]) f

def toList (f : Fields) : List Bytes := f.close.closed.reverse

def addArguments (quoted : Bool) : List Bytes → Fields → Fields
  | [], f => f
  | [a], f => if quoted then f.add a else f.split a
  | a :: as, f => addArguments quoted as (if quoted then f.add a else f.split a).close

def addPart (e : Env) (f : Fields) : Part → Fields
  | .text s => f.add s
  | .parameter [64] quoted => f.addArguments quoted e.arguments
  | .parameter [42] true => f.add (Utility.spaced e.arguments)
  | .parameter [42] false => f.addArguments false e.arguments
  | .parameter name true => f.add (e.value name)
  | .parameter name false => f.split (e.value name)

end Fields

/-- Whether a word is nothing but all arguments in quotes, which may be no field at all. -/
def Word.isArguments (w : Word) : Bool := w = [.text [], .parameter [64] true]

def Word.expand (e : Env) (w : Word) : List Bytes :=
  if w.isArguments then e.arguments else (w.foldl (Fields.addPart e) ⟨[], none⟩).toList

def Word.text (e : Env) (w : Word) : Bytes := Utility.spaced (w.expand e)

def complain (e : Env) (message : Bytes) : Program Unit :=
  Utility.complain (e.name ++ Bytes.ofAscii ": 1: " ++ message)

def failure (path : Bytes) (mode : OpenMode) (e : Errno) : Bytes :=
  let isMissing := e = Errno.noEntry ∨ e = Errno.notDirectory
  let (action, missing) := if mode = .read then ("open ", "No such file")
    else ("create ", "Directory nonexistent")
  Bytes.ofAscii ("cannot " ++ action) ++ path ++
    Bytes.ofAscii (": " ++ if isMissing then missing else e.description)

def redirect (e : Env) (r : Redirection) : Program Bool :=
  match r.target with
  | .input w => opened (w.text e) .read
  | .output mode w => opened (w.text e) (.create mode)
  | .duplicate w => match Bytes.toNat? (w.text e) with
    | some source => do
      match ← dup2 source r.fd with
      | .ok () => return true
      | .error _ => return false
    | none =>
      if w.text e = [Byte.minus] then do
        let _ ← close r.fd
        return true
      else return false
where
  opened (path : Bytes) (mode : OpenMode) : Program Bool := do
    match ← openFile path mode with
    | .error error =>
      complain e (failure path mode error)
      return false
    | .ok fd =>
      if fd = r.fd then return true
      let _ ← dup2 fd r.fd
      let _ ← close fd
      return true

def redirectAll (e : Env) : List Redirection → Program Bool
  | [] => return true
  | r :: rs => do if ← redirect e r then redirectAll e rs else return false

/-- Where a descriptor is kept while a built-in command has it redirected. -/
def savedFd (fd : Fd) : Fd := fd + 10

def redirected {α : Type} (e : Env) (rs : List Redirection) (failure : α) (body : Program α) :
    Program α := do
  let fds := (rs.map (·.fd)).eraseDups
  let kept ← keep fds
  let ok ← redirectAll e rs
  let a ← if ok then body else pure failure
  restore kept
  return a
where
  keep : List Fd → Program (List (Fd × Bool))
    | [] => return []
    | fd :: fds => do
      let wasOpen ← isOpen fd
      if wasOpen then
        let _ ← dup2 fd (savedFd fd)
      return (fd, wasOpen) :: (← keep fds)
  restore : List (Fd × Bool) → Program Unit
    | [] => return
    | (fd, wasOpen) :: fds => do
      if wasOpen then
        let _ ← dup2 (savedFd fd) fd
        let _ ← close (savedFd fd)
      else
        let _ ← close fd
      restore fds

def waitStatus (pid : Pid) : Program UInt8 := do
  match ← wait pid with
  | .ok (.exited status) => return status
  | .ok (.signaled n) => return (128 + n).toUInt8
  | .error _ => return 127

def waitAll : List Pid → Program Unit
  | [] => return
  | pid :: pids => do
    let _ ← waitStatus pid
    waitAll pids

def inChild (body : Program UInt8) : Program (Except Errno Pid) := do
  match ← fork with
  | .error e => return .error e
  | .ok .child => never (do exit (← body).toUInt32.toInt32)
  | .ok (.parent pid) => return .ok pid

def become (e : Env) (words : List Bytes) : Program UInt8 := do
  let error ← Search.launch (words.headD []) words
  if error = Errno.noEntry ∨ error = Errno.notDirectory then
    complain e (words.headD [] ++ Bytes.ofAscii ": not found")
    return 127
  else
    complain e (words.headD [] ++ Bytes.ofAscii (": " ++ error.description))
    return 126

def external (e : Env) (words : List Bytes) (rs : List Redirection) : Program UInt8 := do
  match ← inChild (do if ← redirectAll e rs then become e words else return 2) with
  | .error _ =>
    complain e (Bytes.ofAscii "Cannot fork")
    return 2
  | .ok pid => waitStatus pid

def signalNames : List String :=
  ["HUP", "INT", "QUIT", "ILL", "TRAP", "ABRT", "BUS", "FPE", "KILL", "USR1", "SEGV", "USR2",
    "PIPE", "ALRM", "TERM", "STKFLT", "CHLD", "CONT", "STOP", "TSTP", "TTIN", "TTOU", "URG", "XCPU",
    "XFSZ", "VTALRM", "PROF", "WINCH", "IO", "PWR", "SYS"]

def signal? (s : Bytes) : Option Signal :=
  match Bytes.toNat? s with
  | some n => some n
  | none =>
    let name := if (Bytes.ofAscii "SIG").isPrefixOf s then s.drop 3 else s
    (signalNames.findIdx? (Bytes.ofAscii · = name)).map (· + 1)

def killAll (e : Env) (arguments : List Bytes) : Program UInt8 :=
  let (signal, targets) : Option Signal × List Bytes := match arguments with
    | [45, 115] :: name :: rest => (signal? name, rest)
    | (45 :: name) :: rest => (signal? name, rest)
    | rest => (some Signal.terminate, rest)
  match signal with
  | none => do
    complain e (Bytes.ofAscii "kill: Illegal option")
    return 2
  | some n => go n targets 0
where
  go (n : Signal) : List Bytes → UInt8 → Program UInt8
    | [], status => return status
    | target :: targets, status => match Bytes.toNat? target with
      | none => do
        complain e (Bytes.ofAscii "kill: Illegal number: " ++ target)
        return 2
      | some pid => do
        match ← kill pid n with
        | .ok () => go n targets status
        | .error error =>
          complain e (Bytes.ofAscii ("kill: " ++ error.description))
          go n targets 1

def echoStyle : Utility.EscapeStyle := ⟨false, true⟩

def printfStyle : Utility.EscapeStyle := ⟨false, false⟩

def say (e : Env) (text : Bytes) : Program UInt8 := do
  match ← writeAll Fd.stdout text with
  | .ok () => return 0
  | .error _ =>
    complain e (Bytes.ofAscii "I/O error")
    return 1

def echo (e : Env) (arguments : List Bytes) : Program UInt8 :=
  let (quiet, words) : Bool × List Bytes := match arguments with
    | [45, 110] :: rest => (true, rest)
    | rest => (false, rest)
  let (text, stopped) := echoStyle.expand (Utility.spaced words)
  say e (if quiet || stopped then text else text ++ [Byte.newline])

def printf (e : Env) (arguments : List Bytes) : Program UInt8 :=
  match arguments with
  | [] => do
    complain e (Bytes.ofAscii "printf: usage: printf format [arg ...]")
    return 2
  | format :: arguments => do
    let p := Utility.Printf.run printfStyle format arguments
    let status ← say e p.text
    return if p.isFine then status else 1

def changeDirectory (e : Env) (arguments : List Bytes) : Program UInt8 := do
  let path := arguments.headD (Bytes.ofAscii ".")
  match ← chdir path with
  | .ok () => return 0
  | .error _ =>
    complain e (Bytes.ofAscii "cd: can't cd to " ++ path)
    return 2

def leave (e : Env) (arguments : List Bytes) : Program Flow :=
  match arguments with
  | [] => return .leave e.status
  | a :: _ => match Bytes.toNat? a with
    | some n => return .leave n.toUInt8
    | none => do
      complain e (Bytes.ofAscii "exit: Illegal number: " ++ a)
      return .leave 2

def builtin? (e : Env) (name : Bytes) (arguments : List Bytes) : Option (Program UInt8) :=
  let table : List (String × Program UInt8) :=
    [(":", return 0), ("true", return 0), ("false", return 1), ("echo", echo e arguments),
      ("printf", printf e arguments), ("kill", killAll e arguments),
      ("cd", changeDirectory e arguments),
      ("pwd", do say e ((← workingDirectory) ++ [Byte.newline]))]
  (table.find? (Bytes.ofAscii ·.1 = name)).map (·.2)

def runSimple (e : Env) (assignments : List (Bytes × Word)) (words : List Word)
    (rs : List Redirection) : Program Flow :=
  let assigned := assignments.foldl (fun e a => e.assign a.1 (a.2.text e)) e
  match words.flatMap (·.expand e) with
  | [] => do
    let status ← redirected assigned rs 2 (return 0)
    return .next (assigned.withStatus status)
  | name :: arguments =>
    if name = Bytes.ofAscii "exit" then redirected e rs (.leave 2) (leave e arguments)
    else if name = Bytes.ofAscii "exec" then do
      if ← redirectAll e rs then
        if arguments = [] then return .next (e.withStatus 0)
        else return .leave (← become e arguments)
      else return .leave 2
    else if name = Bytes.ofAscii "shift" then
      let n := (arguments.head?.bind Bytes.toNat?).getD 1
      if e.arguments.length < n then return .leave 2
      else return .next { e with arguments := e.arguments.drop n, status := 0 }
    else if name = Bytes.ofAscii "wait" then do
      waitAll e.background
      return .next { e with status := 0, background := [] }
    else do
      let status ← match builtin? e name arguments with
        | some body => redirected e rs 2 body
        | none => external e (name :: arguments) rs
      return .next (e.withStatus status)

def Flow.status : Flow → UInt8
  | .next e => e.status
  | .leave status => status

def repeatWhile (success : Bool) (condition body : Env → Program Flow) :
    Nat → UInt8 → Env → Program Flow
  | 0, status, e => return .next (e.withStatus status)
  | n + 1, status, e => do
    match ← condition e with
    | .leave s => return .leave s
    | .next e =>
      if (e.status == 0) = success then
        match ← body e with
        | .leave s => return .leave s
        | .next e => repeatWhile success condition body n e.status e
      else return .next (e.withStatus status)

def forEach (name : Bytes) (body : Env → Program Flow) : List Bytes → Env → Program Flow
  | [], e => return .next e
  | v :: vs, e => do
    match ← body (e.assign name v) with
    | .leave s => return .leave s
    | .next e => forEach name body vs e

def piped (e : Env) (first second : Program Flow) : Program Flow := do
  match ← pipe with
  | .error _ => return .leave 2
  | .ok (r, w) =>
    let a ← inChild (do
      let _ ← dup2 w Fd.stdout
      let _ ← close r
      let _ ← close w
      return (← first).status)
    let b ← inChild (do
      let _ ← dup2 r Fd.stdin
      let _ ← close r
      let _ ← close w
      return (← second).status)
    let _ ← close r
    let _ ← close w
    if let .ok pid := a then
      let _ ← waitStatus pid
    match b with
    | .ok pid => return .next (e.withStatus (← waitStatus pid))
    | .error _ => return .leave 2

def eval : Command → Env → Program Flow
  | .nothing, e => return .next e
  | .simple assignments words rs, e => runSimple e assignments words rs
  | .subshell c, e => do
    match ← inChild (do return (← eval c e).status) with
    | .ok pid => return .next (e.withStatus (← waitStatus pid))
    | .error _ => return .leave 2
  | .pipeline a b, e => piped e (eval a e) (eval b e)
  | .background c, e => do
    match ← inChild (do return (← eval c e).status) with
    | .ok pid => return .next { e with status := 0, background := e.background ++ [pid] }
    | .error _ => return .leave 2
  | .negation c, e => do
    match ← eval c e with
    | .next e => return .next (e.withStatus (if e.status = 0 then 1 else 0))
    | flow => return flow
  | .conjunction a b, e => do
    match ← eval a e with
    | .next e => if e.status = 0 then eval b e else return .next e
    | flow => return flow
  | .disjunction a b, e => do
    match ← eval a e with
    | .next e => if e.status = 0 then return .next e else eval b e
    | flow => return flow
  | .sequence a b, e => do
    match ← eval a e with
    | .next e => eval b e
    | flow => return flow
  | .loop success condition body, e =>
    repeatWhile success (fun e => eval condition e) (fun e => eval body e) Utility.patience 0 e
  | .branch condition yes no, e => do
    match ← eval condition e with
    | .next e => if e.status = 0 then eval yes e else eval no (e.withStatus 0)
    | flow => return flow
  | .each name words body, e =>
    forEach name (fun e => eval body e) (words.flatMap (·.expand e)) (e.withStatus 0)
  | .invalid, e => do
    complain e (Bytes.ofAscii "Syntax error")
    return .leave 2

def runAll : List Command → Env → Program UInt8
  | [], e => return e.status
  | c :: cs, e => do
    match ← eval c e with
    | .next e => runAll cs e
    | .leave status => return status

def run (text name : Bytes) (arguments : List Bytes) : Program UInt8 := do
  let path : Option Bytes ← environmentPath
  let directory : Bytes ← workingDirectory
  let bindings := (path.map (Bytes.ofAscii "PATH", ·)).toList ++
    [(Bytes.ofAscii "PWD", directory)]
  runAll (commands text) ⟨name, arguments, ← processId, 0, [], bindings⟩

def shell (name : Bytes) (arguments : List Bytes) : Program UInt8 :=
  match arguments with
  | [] => fromInput
  | [45, 115] :: _ => fromInput
  | [45, 99] :: [] => do
    Utility.complain (name ++ Bytes.ofAscii ": 0: -c requires an argument")
    return 2
  | [45, 99] :: text :: [] => run text name []
  | [45, 99] :: text :: name :: arguments => run text name arguments
  | file :: arguments => do
    match ← openFile file .read with
    | .error _ =>
      Utility.complain
        (name ++ Bytes.ofAscii ": 0: cannot open " ++ file ++ Bytes.ofAscii ": No such file")
      return 2
    | .ok fd =>
      let (text, e) ← Utility.readAll fd
      let _ ← close fd
      if e.isSome then return 2 else run text file arguments
where
  fromInput : Program UInt8 := do
    let (text, _) ← Utility.readAll Fd.stdin
    run text name []

end PipeShell.Script
