import PipeShell.Kernel.Launch
import PipeShell.Script.Eval
import PipeShell.Utility.Listing

/-! The installed programs, and how the system runs them. -/
namespace PipeShell.Utility

open Program

def launch (arguments : List Bytes) : Program UInt8 :=
  match arguments with
  | [] => return 0
  | name :: _ => do
    let e ← Search.launch name arguments
    complain (Bytes.ofAscii "env: '" ++ name ++ Bytes.ofAscii ("': " ++ e.description))
    return if e = Errno.noEntry then 127 else 126

def table : List (String × (List Bytes → Program UInt8)) :=
  let plain (run : List Bytes → Program UInt8) (argv : List Bytes) : Program UInt8 := run argv.tail
  [("cat", plain cat),
    ("dir", plain (list "dir" true)),
    ("echo", plain echo),
    ("env", plain launch),
    ("false", fun _ => return 1),
    ("head", plain head),
    ("ls", plain (list "ls" false)),
    ("printf", plain printf),
    ("pwd", plain sayDirectory),
    ("seq", plain sequence),
    ("sh", fun argv => Script.shell (argv.headD []) argv.tail),
    ("sleep", plain sleepFor),
    ("sort", plain sort),
    ("tail", plain tail),
    ("tee", plain tee),
    ("tr", plain tr),
    ("true", fun _ => return 0),
    ("wc", plain wc),
    ("yes", plain yes)]

def names : List String := table.map (·.1)

def load (name : Bytes) (argv : List Bytes) : Program UInt8 :=
  match table.find? (Bytes.ofAscii ·.1 = name) with
  | some (_, run) => run argv
  | none => return 1

def machine : Machine (Program UInt8) where
  load := load
  move
    | .done status => ⟨.exit status.toUInt32.toInt32, nofun⟩
    | .call c again k => ⟨c, fun r => if again r then .call c again k else k r⟩

end PipeShell.Utility
