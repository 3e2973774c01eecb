import PipeShell.Kernel.Launch
import PipeShell.Kernel.Transfer

/-! One step of one process: it makes its next call and goes on with the reply. A call that has to
wait is no step. Which process makes the next step is not decided here. -/
namespace PipeShell

namespace Signal

def isIgnored (n : Signal) : Bool := n == 0 || n == 17 || n == 23 || n == 28

abbrev resume : Signal := 18

def isStop (n : Signal) : Bool := 19 ≤ n && n ≤ 22

end Signal

namespace Process

variable {ι ρ : Type} (p : Process ι ρ)

def signaled (n : Signal) : Process ι ρ :=
  match p.control with
  | .ended _ => p
  | _ =>
    if Signal.isIgnored n || (n == Signal.brokenPipe && p.ignoresBrokenPipe) then p
    else if n = Signal.resume then { p with isStopped := false }
    else if Signal.isStop n then { p with isStopped := true }
    else p.finish (.signaled n)

def dup2 (source target : Fd) : Except Errno (Process ι ρ) :=
  match p.descriptors.get? source with
  | none => .error Errno.badDescriptor
  | some d =>
    if p.descriptorLimit ≤ target then .error Errno.badDescriptor
    else if source = target then .ok p
    else .ok { p with descriptors := p.descriptors.set target { d with closeOnExec := false } }

def chdir (t : FileTree) (path : Bytes) : Except Errno (Process ι ρ) := do
  let (i, inode) ← t.find p.credentials p.directory path
  if !inode.isDirectory then throw Errno.notDirectory
  if !inode.grants p.credentials .execute then throw Errno.accessDenied
  return { p with directory := i }

/-- Whether the reply to a write means the end of the process. -/
def breaks (r : Except Errno Nat) : Bool :=
  match r with
  | .error e => e = Errno.brokenPipe && !p.ignoresBrokenPipe
  | .ok _ => false

def access (t : FileTree) (path : Bytes) : Except Errno Unit := do
  let (_, inode) ← t.find p.credentials p.directory path
  if !inode.grants p.credentials .execute then throw Errno.accessDenied

def listDirectory (t : FileTree) (path : Bytes) : Except Errno (List Bytes) := do
  let (_, inode) ← t.find p.credentials p.directory path
  match inode.content with
  | .directory _ entries =>
    if inode.grants p.credentials .read then return entries.map (·.1) else throw Errno.accessDenied
  | _ => throw Errno.notDirectory

end Process

namespace System

variable {ι ρ : Type} (m : Machine ι) (s : System ι ρ)

def processCount (user : Nat) : Nat :=
  s.processes.entries.countP fun e => e.2.credentials.user == user

def mayFork (p : Process ι ρ) : Bool :=
  match p.processLimit with
  | none => true
  | some n => s.processCount p.credentials.user < n

def fork (pid : Pid) (p : Process ι ρ) (child : Control ι ρ) (parent : Pid → Control ι ρ) :
    System ι ρ :=
  let new := s.nextPid
  let t := { s with nextPid := new + 1 }.setProcess new
    { p with parent := pid, control := child, alarm := none }
  t.resume pid (parent new)

def wait (pid : Pid) (p : Process ι ρ) (child : Pid) :
    Option (Except Errno Termination × System ι ρ) :=
  match s.process? child with
  | none => some (.error Errno.noChild, s)
  | some q =>
    if q.parent ≠ pid then some (.error Errno.noChild, s)
    else match q.control with
      | .ended t => some (.ok t, { s with processes := s.processes.erase child })
      | _ => match p.alarm with
        | none => none
        | some a =>
          if a.due ≤ s.clock then
            let a := { a with due := s.clock + a.period }
            some (.error Errno.interrupted, s.setProcess pid { p with alarm := some a })
          else none

/-- The reply to a call, and the system after it. There is none if the call has to wait, and for a
call after which its process does not just go on: it ends, it becomes another program, or it goes on
as two. -/
def answer (pid : Pid) (p : Process ι ρ) : (c : Syscall) → Option (c.Reply × System ι ρ)
  | .exit _ => none
  | .fork => if s.mayFork p then none else some (.error Errno.again, s)
  | .exec path argv => match s.files.program p.credentials p.directory Header.depth path argv with
    | .error e => some (e, s)
    | .ok _ => none
  | .wait child => s.wait pid p child
  | .kill target signal => some <|
    if Signal.last < signal then (.error Errno.invalid, s)
    else match s.process? target with
      | none => (.error Errno.noProcess, s)
      | some _ => (.ok (), s.modifyProcess target (·.signaled signal))
  | .pause => none
  | .defaultBrokenPipe => some ((), s.setProcess pid { p with ignoresBrokenPipe := false })
  | .pipe => some <| match s.openPipe pid p with
    | .error e => (.error e, s)
    | .ok (s, r, w) => (.ok (r, w), s)
  | .dup2 source target => some <| match p.dup2 source target with
    | .error e => (.error e, s)
    | .ok p => (.ok (), s.setProcess pid p)
  | .close fd => some <|
    if p.descriptors.contains fd then
      (.ok (), s.setProcess pid { p with descriptors := p.descriptors.erase fd })
    else (.error Errno.badDescriptor, s)
  | .isOpen fd => some (p.descriptors.contains fd, s)
  | .openFile path mode => some <| match s.openPath pid p path mode with
    | .error e => (.error e, s)
    | .ok (s, fd) => (.ok fd, s)
  | .read fd count => s.read p fd count
  | .write fd data => (s.write p fd data).filter fun x => !p.breaks x.1
  | .isTerminal fd => some (s.isTerminal p fd, s)
  | .stat fd => some (s.stat p fd, s)
  | .chdir path => some <| match p.chdir s.files path with
    | .error e => (.error e, s)
    | .ok p => (.ok (), s.setProcess pid p)
  | .workingDirectory => some (s.files.pathOf p.directory, s)
  | .access path => some (p.access s.files path, s)
  | .listDirectory path => some (p.listDirectory s.files path, s)
  | .environmentPath => some (p.searchPath, s)
  | .processId => some (pid, s)
  | .clock => some (s.clock, s)
  | .sleepUntil time => if time ≤ s.clock then some ((), s) else none
  | .interval period =>
    some ((), s.setProcess pid { p with alarm := some ⟨period, s.clock + period⟩ })

/-- What becomes of a system when a call of process `pid` is not just answered; the process would go
on with `k`. -/
def depart (pid : Pid) (p : Process ι ρ) (c : Syscall) (k : c.Reply → Control ι ρ) :
    Option (System ι ρ) :=
  match c, k with
  | .exit code, _ => some (s.finish pid (.exited code.toUInt32.toUInt8))
  | .fork, k =>
    if s.mayFork p then some (s.fork pid p (k (.ok .child)) fun new => k (.ok (.parent new)))
    else none
  | .exec path argv, _ =>
    match s.files.program p.credentials p.directory Header.depth path argv with
    | .error _ => none
    | .ok (name, argv) => some <| s.setProcess pid
        { p with
          control := .image (m.load name argv)
          descriptors := p.descriptors.filter fun d => !d.closeOnExec }
  | .write fd data, _ => match s.write p fd data with
    | some (r, s) => if p.breaks r then some (s.finish pid (.signaled Signal.brokenPipe)) else none
    | none => none
  | _, _ => none

/-- Carries out the call `c` of process `pid`, which goes on with `k`; none if the call has to
wait. -/
def perform (pid : Pid) (p : Process ι ρ) (c : Syscall) (k : c.Reply → Control ι ρ) :
    Option (System ι ρ) :=
  match s.answer pid p c with
  | some (r, s) => some (s.resume pid (k r))
  | none => s.depart m pid p c k

def step (pid : Pid) : Option (System ι ρ) := do
  let p ← s.process? pid
  if p.isStopped then none
  else match p.control with
    | .code (.call c again k) =>
      s.perform m pid p c fun r => if again r then p.control else .code (k r)
    | .image i =>
      let ⟨c, k⟩ := m.move i
      s.perform m pid p c fun r => .image (k r)
    | _ => none

end System

end PipeShell
