import PipeShell.Program

/-! Reading and writing whole streams. A program cannot say beforehand how long its input is; its
loops are cut off after so many rounds that no run gets there. -/
namespace PipeShell.Utility

open Program

def patience : Nat := 1000000000

def blockSize : Nat := 65536

/-- Reads to the end of the input, or until `f` has seen enough: it takes what it has made of the
input so far and the next piece, and says whether to go on. -/
def foldStream {σ : Type} (fd : Fd) (f : σ → Bytes → Program (σ × Bool)) (s : σ) :
    Program (σ × Option Errno) := go patience s
where
  go : Nat → σ → Program (σ × Option Errno)
    | 0, s => return (s, none)
    | n + 1, s => do
      match ← read fd blockSize with
      | .error e => return (s, some e)
      | .ok [] => return (s, none)
      | .ok piece =>
        let (s, more) ← f s piece
        if more then go n s else return (s, none)

def readAll (fd : Fd) : Program (Bytes × Option Errno) := do
  let (pieces, e) ← foldStream fd (fun (s : List Bytes) piece => return (piece :: s, true)) []
  return (pieces.reverse.flatten, e)

def complain (message : Bytes) : Program Unit := do
  let _ ← writeAll Fd.stderr (message ++ [Byte.newline])

def sayAll (name : String) (data : Bytes) : Program UInt8 := do
  match ← writeAll Fd.stdout data with
  | .ok () => return 0
  | .error e =>
    complain (Bytes.ofAscii (name ++ ": write error: " ++ e.description))
    return 1

def standardInput : Bytes := [Byte.minus]

/-- What the inputs of a program make of `s`, and whether all could be read: the files named, or
standard input if there is none. `message` words an error. -/
def foldInputs {σ : Type} (message : Bytes → Errno → Bytes) (files : List Bytes) (s : σ)
    (f : σ → Bytes → Fd → Program (σ × Option Errno)) : Program (σ × Bool) :=
  go (if files = [] then [standardInput] else files) s true
where
  go : List Bytes → σ → Bool → Program (σ × Bool)
    | [], s, fine => return (s, fine)
    | name :: names, s, fine =>
      if name = standardInput then do
        let (s, e) ← f s name Fd.stdin
        match e with
        | none => go names s fine
        | some e =>
          complain (message name e)
          go names s false
      else do
        match ← openFile name .read with
        | .error e =>
          complain (message name e)
          go names s false
        | .ok fd =>
          let (s, e) ← f s name fd
          let _ ← close fd
          match e with
          | none => go names s fine
          | some e =>
            complain (message name e)
            go names s false

def lines (s : Bytes) : List Bytes :=
  let (ended, current) := s.foldl
    (fun (ended, current) c =>
      if c = Byte.newline then (current.reverse :: ended, []) else (ended, c :: current))
    (([] : List Bytes), ([] : Bytes))
  (if current = [] then ended else current.reverse :: ended).reverse

def unlines (ls : List Bytes) : Bytes := (ls.map (· ++ [Byte.newline])).flatten

end PipeShell.Utility
