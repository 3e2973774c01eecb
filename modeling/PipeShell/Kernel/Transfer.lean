import PipeShell.Kernel.System

/-! Opening, reading and writing. A read of an empty pipe has to wait while somebody can still write
to it, a write to a full one while somebody can still read from it. Without a reader a write breaks
the pipe, without a writer a read finds the end. -/
namespace PipeShell

def creationMode : Nat := 0o644

namespace FileTree

variable (t : FileTree) (c : Credentials) (cwd : Nat)

def checkWritable (inode : Inode) : Except Errno Unit :=
  if inode.isDirectory then .error Errno.isDirectory
  else if inode.grants c .write then .ok ()
  else .error Errno.accessDenied

def truncate (i : Nat) : FileTree :=
  match (t.inodes.get? i).map Inode.content with
  | some (.regular _) => t.setContent i (.regular [])
  | _ => t

/-- Opens a file for writing, and makes it if it is missing. A name with a slash after it is never
made. -/
def openOrCreate (path : Bytes) (mode : RedirectMode) : Except Errno (FileTree × Nat) := do
  match ← t.place c cwd path with
  | .directory _ => throw Errno.isDirectory
  | .entry _ _ _ true => throw Errno.isDirectory
  | .entry dir name none false =>
    if (t.inodes.get? dir).any (·.grants c .write) then
      return t.create dir name ⟨.regular [], creationMode, c.user, c.group⟩
    else throw Errno.accessDenied
  | .entry _ _ (some i) false => match t.inodes.get? i with
    | none => throw Errno.noEntry
    | some inode =>
      checkWritable c inode
      return (if mode = .truncate then t.truncate i else t, i)

def openAs (path : Bytes) : OpenMode → Except Errno (FileTree × Nat)
  | .read => do
    let (i, inode) ← t.find c cwd path
    if inode.grants c .read then return (t, i) else throw Errno.accessDenied
  | .write => do
    let (i, inode) ← t.find c cwd path
    checkWritable c inode
    return (t, i)
  | .create mode => t.openOrCreate c cwd path mode

end FileTree

def OpenMode.openFile (i : Nat) : OpenMode → OpenFile
  | .read => ⟨.file i, true, false, false, 0⟩
  | .write => ⟨.file i, false, true, false, 0⟩
  | .create mode => ⟨.file i, false, true, mode = .append, 0⟩

namespace Bytes

/-- Puts `new` at a position; a gap in front of it is filled with NUL bytes. -/
def overwrite (s : Bytes) (position : Nat) (new : Bytes) : Bytes :=
  s.take position ++ List.replicate (position - s.length) Byte.nul ++ new ++
    s.drop (position + new.length)

end Bytes

namespace System

variable {ι ρ : Type} (s : System ι ρ)

/-- Opens a file for a process. That no descriptor is left is found out before the path is
followed. -/
def openPath (pid : Pid) (p : Process ι ρ) (path : Bytes) (mode : OpenMode) :
    Except Errno (System ι ρ × Fd) := do
  if let some e := FileTree.pathError? path then throw e
  let some fd := p.freeDescriptor? | throw Errno.tooManyFiles
  let (files, i) ← s.files.openAs p.credentials p.directory path mode
  let (s, n) := { s with files }.addOpenFile (mode.openFile i)
  return (s.setProcess pid { p with descriptors := p.descriptors.set fd ⟨n, true⟩ }, fd)

def openPipe (pid : Pid) (p : Process ι ρ) : Except Errno (System ι ρ × Fd × Fd) := do
  let some r := p.freeDescriptor? | throw Errno.tooManyFiles
  let n := s.pipes.above
  let (s, i) := { s with pipes := s.pipes.set n [] }.addOpenFile ⟨.readEnd n, true, false, false, 0⟩
  let (s, j) := s.addOpenFile ⟨.writeEnd n, false, true, false, 0⟩
  let p := { p with descriptors := p.descriptors.set r ⟨i, true⟩ }
  let some w := p.freeDescriptor? | throw Errno.tooManyFiles
  return (s.setProcess pid { p with descriptors := p.descriptors.set w ⟨j, true⟩ }, r, w)

def readFile (i count position : Nat) : Except Errno Bytes :=
  match (s.files.inodes.get? i).map Inode.content with
  | some (.directory _ _) => .error Errno.isDirectory
  | some (.regular data) => .ok ((data.drop position).take count)
  | some .fullDevice => .ok (List.replicate count Byte.nul)
  | _ => .ok []

/-- What a read returns, and the system after it; none if it has to wait. -/
def read (p : Process ι ρ) (fd : Fd) (count : Nat) : Option (Except Errno Bytes × System ι ρ) :=
  match s.openFile? p fd with
  | none => some (.error Errno.badDescriptor, s)
  | some (n, f) =>
    if !f.readable then some (.error Errno.badDescriptor, s)
    else match f.resource with
      | .file i => match s.readFile i count f.position with
        | .error e => some (.error e, s)
        | .ok data =>
          let f := { f with position := f.position + data.length }
          some (.ok data, { s with openFiles := s.openFiles.set n f })
      | .readEnd q => match (s.pipes.get? q).getD [] with
        | [] => if s.isHeld (.writeEnd q) then none else some (.ok [], s)
        | buffer =>
          some (.ok (buffer.take count), { s with pipes := s.pipes.set q (buffer.drop count) })
      | .source q => match s.sources.get? q with
        | none => some (.ok [], s)
        | some source => match source.pending with
          | [] => if source.closed then some (.ok [], s) else none
          | entry :: more =>
            let more := if entry.length ≤ count then more else entry.drop count :: more
            some (.ok (entry.take count),
              { s with sources := s.sources.set q { source with pending := more } })
      | .writeEnd _ => some (.error Errno.badDescriptor, s)

def writeFile (n : Nat) (f : OpenFile) (i : Nat) (data : Bytes) :
    Except Errno Nat × System ι ρ :=
  match (s.files.inodes.get? i).map Inode.content with
  | some (.regular old) =>
    let position := if f.appends then old.length else f.position
    let files := s.files.setContent i (.regular (old.overwrite position data))
    let f := { f with position := position + data.length }
    (.ok data.length, { s with files, openFiles := s.openFiles.set n f })
  | some .fullDevice => (.error Errno.noSpace, s)
  | _ => (.ok data.length, s)

def write (p : Process ι ρ) (fd : Fd) (data : Bytes) : Option (Except Errno Nat × System ι ρ) :=
  match s.openFile? p fd with
  | none => some (.error Errno.badDescriptor, s)
  | some (n, f) =>
    if !f.writable then some (.error Errno.badDescriptor, s)
    else if data = [] then some (.ok 0, s)
    else match f.resource with
      | .file i => some (s.writeFile n f i data)
      | .writeEnd q =>
        let buffer := (s.pipes.get? q).getD []
        let room := s.capacity - buffer.length
        if !s.isHeld (.readEnd q) then some (.error Errno.brokenPipe, s)
        else if room = 0 then none
        else some (.ok (min room data.length),
          { s with pipes := s.pipes.set q (buffer ++ data.take room) })
      | _ => some (.error Errno.badDescriptor, s)

def stat (p : Process ι ρ) (fd : Fd) : Except Errno FileStat :=
  match s.openFile? p fd with
  | none => .error Errno.badDescriptor
  | some (_, f) => match f.resource with
    | .file i => match (s.files.inodes.get? i).map Inode.content with
      | some (.regular data) =>
        .ok ⟨some i, data.length, if f.appends then data.length else f.position⟩
      | _ => .ok ⟨none, 0, f.position⟩
    | _ => .ok ⟨none, 0, 0⟩

def isTerminal (p : Process ι ρ) (fd : Fd) : Bool :=
  match s.openFile? p fd with
  | some (_, ⟨.source q, _, _, _, _⟩) => (s.sources.get? q).any (·.isTerminal)
  | _ => false

end System

end PipeShell
