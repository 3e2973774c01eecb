import PipeShell.Program
import PipeShell.Kernel.FileTree

/-! The state of the operating system: files, open files and the descriptors that refer to them,
pipes, processes, and a clock. An open file is shared by all descriptors that were made from one
another, in whatever process they are. Main statement: what keeps an end of a pipe in use is a
descriptor of some process and nothing else (`isHeld_iff`). -/
namespace PipeShell

inductive Resource
  | file (i : Nat)
  | readEnd (pipe : Nat)
  | writeEnd (pipe : Nat)
  /-- input from outside the system -/
  | source (i : Nat)
  deriving DecidableEq, Repr

structure OpenFile where
  resource : Resource
  readable : Bool
  writable : Bool
  /-- every write goes to the end -/
  appends : Bool
  position : Nat
  deriving DecidableEq, Repr

structure Descriptor where
  openFile : Nat
  closeOnExec : Bool
  deriving DecidableEq, Repr

/-- Input from outside the system: one entry is the most that one read returns. While the source is
not closed more may come. -/
structure Source where
  pending : List Bytes
  closed : Bool
  isTerminal : Bool
  deriving DecidableEq, Repr

structure Alarm where
  period : Nat
  due : Nat
  deriving DecidableEq, Repr

/-- What a process is up to: it runs code that was there from the start or came through forks, or
the image of a program that it became, or it has ended and is still to be waited for. -/
inductive Control (ι ρ : Type)
  | code (p : Program ρ)
  | image (i : ι)
  | ended (t : Termination)

namespace Control

variable {ι ρ : Type}

def isCode : Control ι ρ → Bool
  | code _ => true
  | _ => false

def isImage : Control ι ρ → Bool
  | image _ => true
  | _ => false

def termination? : Control ι ρ → Option Termination
  | ended t => some t
  | _ => none

def result? : Control ι ρ → Option ρ
  | code (.done a) => some a
  | _ => none

end Control

structure Process (ι ρ : Type) where
  parent : Pid
  control : Control ι ρ
  descriptors : Table Descriptor
  directory : Nat
  searchPath : Option Bytes
  credentials : Credentials
  ignoresBrokenPipe : Bool
  /-- stopped by a signal -/
  isStopped : Bool
  /-- all descriptors are below this number -/
  descriptorLimit : Nat
  /-- with so many processes of one user, none can be forked -/
  processLimit : Option Nat
  alarm : Option Alarm

structure System (ι ρ : Type) where
  files : FileTree
  openFiles : Table OpenFile
  pipes : Table Bytes
  /-- how many bytes a pipe holds -/
  capacity : Nat
  sources : Table Source
  processes : Table (Process ι ρ)
  nextPid : Pid
  clock : Nat

namespace Process

variable {ι ρ : Type} (p : Process ι ρ)

def freeDescriptor? : Option Fd :=
  let fd := p.descriptors.lowestFree
  if fd < p.descriptorLimit then some fd else none

def finish (t : Termination) : Process ι ρ :=
  { p with control := .ended t, descriptors := Table.empty, alarm := none }

end Process

namespace System

variable {ι ρ : Type} (s : System ι ρ)

def process? (pid : Pid) : Option (Process ι ρ) := s.processes.get? pid

def setProcess (pid : Pid) (p : Process ι ρ) : System ι ρ :=
  { s with processes := s.processes.set pid p }

def modifyProcess (pid : Pid) (f : Process ι ρ → Process ι ρ) : System ι ρ :=
  match s.process? pid with
  | some p => s.setProcess pid (f p)
  | none => s

def resume (pid : Pid) (control : Control ι ρ) : System ι ρ :=
  s.modifyProcess pid fun p =>
    match p.control with
    | .ended _ => p
    | _ => { p with control }

def finish (pid : Pid) (t : Termination) : System ι ρ := s.modifyProcess pid (·.finish t)

def openFile? (p : Process ι ρ) (fd : Fd) : Option (Nat × OpenFile) := do
  let d ← p.descriptors.get? fd
  let f ← s.openFiles.get? d.openFile
  return (d.openFile, f)

def holds (p : Process ι ρ) (r : Resource) : Bool :=
  p.descriptors.any fun d => (s.openFiles.get? d.openFile).any (·.resource = r)

def isHeld (r : Resource) : Bool := s.processes.any (s.holds · r)

def addOpenFile (f : OpenFile) : System ι ρ × Nat :=
  let n := s.openFiles.above
  ({ s with openFiles := s.openFiles.set n f }, n)

@[simp] theorem process?_setProcess (pid q : Pid) (p : Process ι ρ) :
    (s.setProcess pid p).process? q = if q = pid then some p else s.process? q :=
  Table.get?_set s.processes pid q p

theorem openFile?_eq_some_iff (p : Process ι ρ) (fd : Fd) (n : Nat) (f : OpenFile) :
    s.openFile? p fd = some (n, f) ↔
      ∃ d, p.descriptors.get? fd = some d ∧ d.openFile = n ∧ s.openFiles.get? n = some f := by
  simp only [openFile?, Option.bind_eq_bind, Option.bind_eq_some_iff, Option.pure_def,
    Option.some.injEq, Prod.mk.injEq]
  constructor
  · rintro ⟨d, hd, g, hg, rfl, rfl⟩; exact ⟨d, hd, rfl, hg⟩
  · rintro ⟨d, hd, rfl, hf⟩; exact ⟨d, hd, f, hf, rfl, rfl⟩

theorem holds_iff (p : Process ι ρ) (r : Resource) :
    s.holds p r ↔ ∃ fd n f, s.openFile? p fd = some (n, f) ∧ f.resource = r := by
  simp only [holds, Table.any_eq_true_iff, Option.any_eq_true, decide_eq_true_eq,
    openFile?_eq_some_iff]
  constructor
  · rintro ⟨fd, d, hd, f, hf, hr⟩; exact ⟨fd, d.openFile, f, ⟨d, hd, rfl, hf⟩, hr⟩
  · rintro ⟨fd, _, f, ⟨d, hd, rfl, hf⟩, hr⟩; exact ⟨fd, d, hd, f, hf, hr⟩

theorem isHeld_iff (r : Resource) :
    s.isHeld r ↔ ∃ pid p, s.process? pid = some p ∧ s.holds p r :=
  Table.any_eq_true_iff s.processes (s.holds · r)

@[simp] theorem process?_modifyProcess (pid q : Pid) (f : Process ι ρ → Process ι ρ) :
    (s.modifyProcess pid f).process? q =
      if q = pid then (s.process? q).map f else s.process? q := by
  unfold modifyProcess
  by_cases h : q = pid
  · subst h
    split <;> simp_all
  · split <;> simp [h]

end System

end PipeShell
