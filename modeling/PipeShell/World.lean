import PipeShell.Kernel.Run
import PipeShell.Utility.Installed

/-! A small installed system: directories with programs, a few devices, and a scratch directory in
which everything happens. Its main process is the administrator's, who is bound by permission bits
like anybody else. -/
namespace PipeShell

inductive Setting
  | directory (path : Bytes) (mode : Nat)
  | file (path data : Bytes) (mode : Nat)
  | link (path target : Bytes)
  deriving DecidableEq, Repr

namespace FileTree

variable (t : FileTree)

def installer : Credentials := ⟨0, 0, true⟩

def ofRoot : FileTree := ⟨Table.empty.set root ⟨.directory root [], 0o755, 0, 0⟩⟩

def findOrMake (dir : Nat) (path : Bytes) (make : Nat → Inode) : FileTree × Option Nat :=
  match t.place installer dir path with
  | .ok (.directory i) => (t, some i)
  | .ok (.entry _ _ (some i) _) => (t, some i)
  | .ok (.entry parent name none _) =>
    let (t, i) := t.create parent name (make parent)
    (t, some i)
  | .error _ => (t, none)

def setMode (i mode : Nat) : FileTree :=
  match t.inodes.get? i with
  | some inode => ⟨t.inodes.set i { inode with mode }⟩
  | none => t

def newDirectory (parent : Nat) : Inode := ⟨.directory parent [], 0o755, 0, 0⟩

def makeDirectories : FileTree → (dir : Nat) → List Bytes → FileTree × Option Nat
  | t, dir, [] => (t, some dir)
  | t, dir, name :: names => match t.findOrMake dir name newDirectory with
    | (t, some i) => makeDirectories t i names
    | (t, none) => (t, none)

def put (dir : Nat) : Setting → FileTree
  | .directory path mode => match t.makeDirectories dir (components path) with
    | (t, some i) => t.setMode i mode
    | (t, none) => t
  | .file path data mode =>
    let names := components path
    match t.makeDirectories dir names.dropLast with
    | (t, some parent) =>
      match t.findOrMake parent (names.getLast?.getD []) fun _ => ⟨.regular [], mode, 0, 0⟩ with
      | (t, some i) => (t.setContent i (.regular data)).setMode i mode
      | (t, none) => t
    | (t, none) => t
  | .link path target =>
    let names := components path
    match t.makeDirectories dir names.dropLast with
    | (t, some parent) =>
      (t.findOrMake parent (names.getLast?.getD []) fun _ => ⟨.link target, 0o777, 0, 0⟩).1
    | (t, none) => t

def putSpecial (path : String) (content : Content) (mode : Nat) : FileTree :=
  (t.findOrMake root (Bytes.ofAscii path) fun _ => ⟨content, mode, 0, 0⟩).1

def below : (depth : Nat) → (dir : Nat) → (before : Bytes) → List (Bytes × Inode)
  | 0, _, _ => []
  | depth + 1, dir, before => match (t.inodes.get? dir).map Inode.content with
    | some (.directory _ entries) => entries.flatMap fun (name, i) =>
      match t.inodes.get? i with
      | some inode => (before ++ name, inode) :: below depth i (before ++ name ++ [Byte.slash])
      | none => []
    | _ => []

def listing (dir : Nat) : List (Bytes × Inode) :=
  (t.below t.inodes.entries.length dir []).mergeSort fun a b => a.1.le b.1

end FileTree

namespace World

def searchPath : Bytes := Bytes.ofAscii "/usr/local/bin:/usr/bin:/bin"

def scratch : Bytes := Bytes.ofAscii "/tmp/scratch"

def installed : FileTree :=
  let directories := ["/usr/bin", "/usr/local/bin", "/dev", "/tmp", "/tmp/scratch"]
  let makeDirectory (t : FileTree) (path : String) : FileTree :=
    t.put FileTree.root (.directory (Bytes.ofAscii path) 0o755)
  let t := directories.foldl makeDirectory FileTree.ofRoot
  let t := t.put FileTree.root (.link (Bytes.ofAscii "/bin") (Bytes.ofAscii "usr/bin"))
  let t := t.putSpecial "/dev/null" .nullDevice 0o666
  let t := t.putSpecial "/dev/full" .fullDevice 0o666
  Utility.names.foldl (fun t name =>
    t.putSpecial ("/usr/bin/" ++ name) (.image (Bytes.ofAscii name)) 0o755) t

def scratchDirectory (t : FileTree) : Nat :=
  match t.find FileTree.installer FileTree.root scratch with
  | .ok (i, _) => i
  | .error _ => FileTree.root

def furnish (settings : List Setting) : FileTree :=
  settings.foldl (fun t s => t.put (scratchDirectory installed) s) installed

inductive Input
  | nothing
  | file (data : Bytes)
  /-- the scratch directory, which cannot be read -/
  | directory
  | source (s : Source)
  deriving DecidableEq, Repr

def mainPid : Pid := 1

def pipeCapacity : Nat := 65536

def descriptorLimit : Nat := 1048576

variable {ρ : Type}

/-- A system whose main process runs `program`. What it says on standard output and standard error
goes to two files that are in no directory. -/
def boot (files : FileTree) (path : Option Bytes) (input : Input) (program : Program ρ) :
    System (Program UInt8) ρ :=
  let cwd := scratchDirectory files
  let hidden (t : FileTree) (data : Bytes) : FileTree × Nat :=
    let i := t.inodes.above
    (⟨t.inodes.set i ⟨.regular data, 0o600, 0, 0⟩⟩, i)
  let (files, out) := hidden files []
  let (files, err) := hidden files []
  let (files, resource) : FileTree × Resource := match input with
    | .nothing => match files.find FileTree.installer FileTree.root (Bytes.ofAscii "/dev/null") with
      | .ok (i, _) => (files, .file i)
      | .error _ => (files, .source 1)
    | .file data =>
      let (files, i) := hidden files data
      (files, .file i)
    | .directory => (files, .file cwd)
    | .source _ => (files, .source 0)
  let sources : Table Source := match input with
    | .source s => Table.empty.set 0 s
    | _ => Table.empty
  let openFiles : Table OpenFile := ((Table.empty.set 0 ⟨resource, true, false, false, 0⟩).set 1
    ⟨.file out, false, true, true, 0⟩).set 2 ⟨.file err, false, true, true, 0⟩
  let descriptors : Table Descriptor :=
    ((Table.empty.set 0 ⟨0, false⟩).set 1 ⟨1, false⟩).set 2 ⟨2, false⟩
  { files, openFiles, sources
    pipes := Table.empty
    capacity := pipeCapacity
    processes := Table.empty.set mainPid
      { parent := 0
        control := .code program
        descriptors
        directory := cwd
        searchPath := path
        credentials := ⟨0, 0, false⟩
        ignoresBrokenPipe := true
        isStopped := false
        descriptorLimit
        processLimit := none
        alarm := none }
    nextPid := mainPid + 1
    clock := 0 }

/-- What was written to a file that a system was booted with, which is number `n` of its open
files. -/
def captured (s : System (Program UInt8) ρ) (n : Nat) : Bytes :=
  match s.openFiles.get? n with
  | some ⟨.file i, _, _, _, _⟩ => s.files.data i
  | _ => []

def output (s : System (Program UInt8) ρ) : Bytes := captured s 1

def errors (s : System (Program UInt8) ρ) : Bytes := captured s 2

def patience : Nat := 1000000000

def run (s : System (Program UInt8) ρ) : System (Program UInt8) ρ :=
  s.run Utility.machine mainPid patience mainPid

def setProgram (s : System (Program UInt8) ρ) (program : Program ρ) : System (Program UInt8) ρ :=
  s.resume mainPid (.code program)

def termination? (s : System (Program UInt8) ρ) : Option Termination :=
  (s.process? mainPid).bind (·.control.termination?)

def result? (s : System (Program UInt8) ρ) : Option ρ :=
  (s.process? mainPid).bind (·.control.result?)

end World

end PipeShell
