import PipeShell.Errno
import PipeShell.Kernel.Table
import PipeShell.Bytes

/-! The tree of files, and how a path is followed in it: name by name, through symbolic links, with
the permission to search every directory on the way. -/
namespace PipeShell

/-- On whose behalf files are used. `overrides` is the privilege to pass over permission bits. -/
structure Credentials where
  user : Nat
  group : Nat
  overrides : Bool
  deriving DecidableEq, Repr

inductive Permission
  | read
  | write
  | execute
  deriving DecidableEq, Repr

def Permission.bit : Permission → Nat
  | read => 2
  | write => 1
  | execute => 0

inductive Content
  | directory (parent : Nat) (entries : List (Bytes × Nat))
  | regular (data : Bytes)
  /-- the image of an installed program -/
  | image (program : Bytes)
  | link (target : Bytes)
  /-- a device that is always empty and takes everything -/
  | nullDevice
  /-- a device that takes nothing, as if the disk were full -/
  | fullDevice
  deriving DecidableEq, Repr

structure Inode where
  content : Content
  mode : Nat
  owner : Nat
  group : Nat
  deriving DecidableEq, Repr

namespace Inode

def isDirectory (i : Inode) : Bool :=
  match i.content with
  | .directory _ _ => true
  | _ => false

def digitFor (i : Inode) (c : Credentials) : Nat :=
  if c.user = i.owner then i.mode / 64 % 8
  else if c.group = i.group then i.mode / 8 % 8
  else i.mode % 8

/-- Whether the mode grants a permission. Overriding never makes a file executable that nobody may
execute. -/
def grants (i : Inode) (c : Credentials) (p : Permission) : Bool :=
  if c.overrides then
    p != .execute || i.isDirectory || (i.mode / 64).testBit 0 || (i.mode / 8).testBit 0 ||
      i.mode.testBit 0
  else (i.digitFor c).testBit p.bit

end Inode

structure FileTree where
  inodes : Table Inode

/-- Where a path leads: to a directory that it does not name by its last component, or to an entry
of a directory, which may be missing. `slash` says that a directory is asked for. -/
inductive Place
  | directory (i : Nat)
  | entry (parent : Nat) (name : Bytes) (found : Option Nat) (slash : Bool)
  deriving DecidableEq, Repr

namespace FileTree

abbrev root : Nat := 0

def isAbsolute (path : Bytes) : Bool := path.head? == some Byte.slash

def hasTrailingSlash (path : Bytes) : Bool := path.getLast? == some Byte.slash

def components (path : Bytes) : List Bytes := (path.splitOn Byte.slash).filter fun n => !n.isEmpty

def pathLimit : Nat := 4096

def nameLimit : Nat := 255

def linkLimit : Nat := 40

def pathError? (path : Bytes) : Option Errno :=
  if path = [] then some Errno.noEntry
  else if pathLimit ≤ path.length then some Errno.nameTooLong
  else none

variable (t : FileTree) (c : Credentials)

/-- Follows names from a directory. The last name may be missing; `links` more symbolic links may be
followed. -/
def follow (links dir : Nat) (names : List Bytes) (slash : Bool) : Except Errno Place :=
  match names with
  | [] => .ok (.directory dir)
  | n :: ns =>
    match t.inodes.get? dir with
    | some inode =>
      match inode.content with
      | .directory parent entries =>
        if !inode.grants c .execute then .error Errno.accessDenied
        else if n = [46] then follow links dir ns slash
        else if n = [46, 46] then follow links parent ns slash
        else if nameLimit < n.length then .error Errno.nameTooLong
        else match entries.lookup n with
          | none => if ns = [] then .ok (.entry dir n none slash) else .error Errno.noEntry
          | some i => match (t.inodes.get? i).map Inode.content with
            | some (.link target) => match links with
              | 0 => .error Errno.tooManyLinks
              | links + 1 =>
                if target = [] then .error Errno.noEntry
                else follow links (if isAbsolute target then root else dir)
                  (components target ++ ns) (slash || (ns = [] && hasTrailingSlash target))
            | _ => if ns = [] then .ok (.entry dir n (some i) slash) else follow links i ns slash
      | _ => .error Errno.notDirectory
    | none => .error Errno.noEntry
termination_by (links, names.length)

def place (cwd : Nat) (path : Bytes) : Except Errno Place :=
  match pathError? path with
  | some e => .error e
  | none =>
    t.follow c linkLimit (if isAbsolute path then root else cwd) (components path)
      (hasTrailingSlash path)

def find (cwd : Nat) (path : Bytes) : Except Errno (Nat × Inode) := do
  let (i, slash) ← match ← t.place c cwd path with
    | .directory i => pure (i, false)
    | .entry _ _ (some i) slash => pure (i, slash)
    | .entry _ _ none _ => throw Errno.noEntry
  match t.inodes.get? i with
  | none => throw Errno.noEntry
  | some inode =>
    if slash && !inode.isDirectory then throw Errno.notDirectory else return (i, inode)

def link (dir : Nat) (name : Bytes) (i : Nat) : FileTree :=
  match t.inodes.get? dir with
  | some inode => match inode.content with
    | .directory parent entries =>
      ⟨t.inodes.set dir { inode with content := .directory parent (entries ++ [(name, i)]) }⟩
    | _ => t
  | none => t

def create (dir : Nat) (name : Bytes) (inode : Inode) : FileTree × Nat :=
  let i := t.inodes.above
  ((⟨t.inodes.set i inode⟩ : FileTree).link dir name i, i)

def setContent (i : Nat) (content : Content) : FileTree :=
  match t.inodes.get? i with
  | some inode => ⟨t.inodes.set i { inode with content }⟩
  | none => t

def data (i : Nat) : Bytes :=
  match (t.inodes.get? i).map Inode.content with
  | some (.regular s) => s
  | _ => []

def namesOf : (n : Nat) → (dir : Nat) → List Bytes
  | 0, _ => []
  | n + 1, dir =>
    if dir = root then []
    else match (t.inodes.get? dir).map Inode.content with
      | some (.directory parent _) => match (t.inodes.get? parent).map Inode.content with
        | some (.directory _ entries) =>
          namesOf n parent ++ ((entries.find? (·.2 == dir)).map (·.1)).toList
        | _ => []
      | _ => []

def pathOf (dir : Nat) : Bytes :=
  match t.namesOf t.inodes.entries.length dir with
  | [] => [Byte.slash]
  | names => (names.map (Byte.slash :: ·)).flatten

end FileTree

end PipeShell
