import PipeShell.Program

/-! Files in the place of standard streams: the target of a redirection as standard output, and a
file that swallows what programs say on standard error. -/
namespace PipeShell

inductive OpenError
  | nulByte
  | system (e : Errno)
  deriving DecidableEq, Repr

inductive SetupError
  | system (e : Errno)
  | file (e : OpenError)
  | nulByte
  deriving DecidableEq, Repr

def OpenError.message : OpenError → String
  | nulByte => "file name contained an unexpected NUL byte"
  | system e => e.fileMessage

def SetupError.message : SetupError → String
  | system e => "nix error: " ++ e.report
  | file e => "io error: " ++ e.message
  | nulByte => "nul char error"

open Program

def openPath (path : Bytes) (mode : OpenMode) : Program (Except OpenError Fd) :=
  if Byte.nul ∈ path then return .error .nulByte
  else do
    match ← openFile path mode with
    | .ok fd => return .ok fd
    | .error e => return .error (.system e)

def Redirect.openTarget (r : Redirect) : Program (Except OpenError Fd) :=
  openPath r.target (.create r.mode)

/-- Makes `target` refer to the file open as `fd`, and closes `fd`. -/
def rebind (fd target : Fd) : Program (Except SetupError Unit) := do
  match ← dup2 fd target with
  | .error e => return .error (.system e)
  | .ok () => match ← close fd with
    | .error e => return .error (.system e)
    | .ok () => return .ok ()

def Redirect.takeStdout (r : Redirect) : Program (Except SetupError Unit) := do
  match ← r.openTarget with
  | .error e => return .error (.file e)
  | .ok fd => rebind fd Fd.stdout

/-- Sends standard error to the file `sink`, which has to exist. -/
def silenceStderr (sink : Bytes) : Program (Except SetupError Unit) := do
  match ← openPath sink .write with
  | .error e => return .error (.file e)
  | .ok fd => rebind fd Fd.stderr

end PipeShell
