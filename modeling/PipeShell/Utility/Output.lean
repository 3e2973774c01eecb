import PipeShell.Utility.Printf
import PipeShell.Utility.Stream

/-! Programs that say something without reading anything. -/
namespace PipeShell.Utility

open Program

def spaced (ws : List Bytes) : Bytes := [Byte.space].intercalate ws

def programStyle : EscapeStyle := ⟨true, false⟩

/-- Whether an argument of echo is a bundle of its options n, e and E. -/
def isEchoOption (a : Bytes) : Bool :=
  match a with
  | 45 :: c :: cs => (c :: cs).all fun c => c = 110 ∨ c = 101 ∨ c = 69
  | _ => false

def echo (arguments : List Bytes) : Program UInt8 :=
  let options := (arguments.takeWhile isEchoOption).flatten
  let words := spaced (arguments.dropWhile isEchoOption)
  let escapes := (options.filter fun c => c = 101 ∨ c = 69).getLast? = some 101
  let (text, stopped) := if escapes then { programStyle with longOctal := true }.expand words
    else (words, false)
  sayAll "echo" (if stopped ∨ 110 ∈ options then text else text ++ [Byte.newline])

def printf (arguments : List Bytes) : Program UInt8 :=
  match arguments with
  | [] => do
    complain (Bytes.ofAscii "printf: missing operand")
    return 1
  | format :: arguments => do
    let p := Printf.run programStyle format arguments
    let status ← sayAll "printf" p.text
    return if p.isFine then status else 1

def sayDirectory (_ : List Bytes) : Program UInt8 := do
  sayAll "pwd" ((← workingDirectory) ++ [Byte.newline])

def ofInt (n : Int) : Bytes :=
  if n < 0 then Byte.minus :: Bytes.ofNat n.natAbs else Bytes.ofNat n.toNat

def toInt? (s : Bytes) : Option Int :=
  match s with
  | 45 :: r => (Bytes.toNat? r).map fun n => -(n : Int)
  | 43 :: r => (Bytes.toNat? r).map Int.ofNat
  | _ => s.toNat?.map Int.ofNat

def sequenceBlock : Nat := 1000

def saySequence (first step : Int) (n : Nat) : Program UInt8 := go n first n
where
  go : Nat → Int → Nat → Program UInt8
    | 0, _, _ => return 0
    | fuel + 1, first, n =>
      if n = 0 then return 0
      else do
        let k := min n sequenceBlock
        let numbers := (List.range k).map fun (i : Nat) => ofInt (first + step * i)
        let status ← sayAll "seq" (unlines numbers)
        if status = 0 then go fuel (first + step * k) (n - k) else return status

def sequence (arguments : List Bytes) : Program UInt8 :=
  let operands := if arguments.head? = some [45, 45] then arguments.tail else arguments
  let numbers : Option (Int × Int × Int) := match operands.mapM toInt? with
    | some [last] => some (1, 1, last)
    | some [first, last] => some (first, 1, last)
    | some [first, step, last] => some (first, step, last)
    | _ => none
  match numbers with
  | none => do
    complain (Bytes.ofAscii "seq: invalid arguments")
    return 1
  | some (first, step, last) =>
    if step = 0 then do
      complain (Bytes.ofAscii "seq: invalid Zero increment value")
      return 1
    else if (0 < step ∧ last < first) ∨ (step < 0 ∧ first < last) then return 0
    else saySequence first step (((last - first) / step).toNat + 1)

def yes (arguments : List Bytes) : Program UInt8 :=
  let line := (if arguments = [] then [121] else spaced arguments) ++ [Byte.newline]
  go (List.replicate (8192 / line.length + 1) line).flatten patience
where
  go (block : Bytes) : Nat → Program UInt8
    | 0 => return 0
    | n + 1 => do
      let status ← sayAll "yes" block
      if status = 0 then go block n else return status

def duration? (s : Bytes) : Option Nat :=
  let seconds := s.takeWhile Byte.isDigit
  let (fraction, rest) : Bytes × Bytes := match s.drop seconds.length with
    | 46 :: r => (r.takeWhile Byte.isDigit, r.dropWhile Byte.isDigit)
    | r => ([], r)
  let unit? : Option Nat := match rest with
    | [] => some 1
    | [c] => [(115, 1), (109, 60), (104, 3600), (100, 86400)].lookup c
    | _ => none
  let thousandths := Bytes.leadingNat ((fraction ++ [48, 48, 48]).take 3)
  if seconds = [] ∧ fraction = [] then none
  else unit?.map fun unit => (Bytes.leadingNat seconds * 1000 + thousandths) * unit

def sleepFor (arguments : List Bytes) : Program UInt8 :=
  match arguments.mapM duration? with
  | none => do
    complain (Bytes.ofAscii "sleep: invalid time interval")
    return 1
  | some [] => do
    complain (Bytes.ofAscii "sleep: missing operand")
    return 1
  | some times => do
    sleep (times.foldl (· + ·) 0)
    return 0

end PipeShell.Utility
