import PipeShell.Bytes

/-! The two commands that the shell carries out itself, and the exit code that `exit` asks for. -/
namespace PipeShell

inductive Builtin
  | cd
  | exit
  deriving DecidableEq, Repr

def Builtin.ofName? (name : Bytes) : Option Builtin :=
  if name = Bytes.ofAscii "cd" then some .cd
  else if name = Bytes.ofAscii "exit" then some .exit
  else none

namespace ExitCode

def sign : Bytes → Bool × Bytes
  | [] => (false, [])
  | c :: s =>
    if c = Byte.minus then (true, s) else if c = Byte.plus then (false, s) else (false, c :: s)

def digits (s : Bytes) : Int32 :=
  (s.takeWhile Byte.isDigit).foldl (fun n c => n * 10 + (c - Byte.zero).toUInt32.toInt32) 0

/-- The number at the start of `s`, modulo 2^32: white space, one sign, digits. Without digits it
is 0, and what follows the digits does not matter. -/
def ofBytes (s : Bytes) : Int32 :=
  let (negative, s) := sign (s.dropWhile Byte.isSpace)
  if negative then -digits s else digits s

def ofArguments : List Bytes → Int32
  | [] => 0
  | a :: _ => ofBytes a

def status (code : Int32) : UInt8 := code.toUInt32.toUInt8

end ExitCode

end PipeShell
