import PipeShell.Utility.Stream

/-! Programs that make an output of their inputs: copies, parts, counts, translations, sorted lines.
-/
namespace PipeShell.Utility

open Program

def inputMessage (before : String) (after : String) (name : Bytes) (e : Errno) : Bytes :=
  Bytes.ofAscii before ++ name ++ Bytes.ofAscii (after ++ ": " ++ e.description)

def isOption (a : Bytes) : Bool := a.head? = some Byte.minus && 2 ≤ a.length

def splitOptions (arguments : List Bytes) : Bytes × List Bytes :=
  let front := arguments.takeWhile (· ≠ [Byte.minus, Byte.minus])
  let back := (arguments.drop front.length).tail
  (((front.filter isOption).map List.tail).flatten, front.filter (fun a => !isOption a) ++ back)

def refuse (name : String) : Program UInt8 := do
  complain (Bytes.ofAscii (name ++ ": invalid option"))
  return 1

def statusOf (fine : Bool) : UInt8 := if fine then 0 else 1

def forward (failed : Bool) (piece : Bytes) : Program (Bool × Bool) := do
  match ← writeAll Fd.stdout piece with
  | .ok () => return (failed, true)
  | .error _ => return (true, false)

/-- Whether a file is the one that the output goes to, with output in it behind the place that is
read next: copying it would never end. -/
def isOwnOutput (fd : Fd) : Program Bool := do
  match (← stat fd : Except Errno FileStat), (← stat Fd.stdout : Except Errno FileStat) with
  | .ok input, .ok output =>
    return input.file.isSome && input.file = output.file && input.position < output.position
  | _, _ => return false

def cat (arguments : List Bytes) : Program UInt8 :=
  let (options, files) := splitOptions arguments
  if options.any (· ≠ 117) then refuse "cat"
  else do
    let (failed, fine) ← foldInputs (inputMessage "cat: " "") files false copy
    return statusOf (fine && !failed)
where
  copy (failed : Bool) (name : Bytes) (fd : Fd) : Program (Bool × Option Errno) := do
    if ← isOwnOutput fd then
      complain (Bytes.ofAscii "cat: " ++ name ++ Bytes.ofAscii ": input file is output file")
      return (true, none)
    else foldStream fd forward failed

def tee (arguments : List Bytes) : Program UInt8 :=
  let (options, files) := splitOptions arguments
  if options.any (· ≠ 97) then refuse "tee"
  else do
    let (fds, fine) ← openAll (if options = [] then .truncate else .append) files
    let (failed, _) ← foldStream Fd.stdin (spread fds) false
    return statusOf (fine && !failed)
where
  openAll (mode : RedirectMode) : List Bytes → Program (List Fd × Bool)
    | [] => return ([], true)
    | name :: names => do
      match ← openFile name (.create mode) with
      | .ok fd =>
        let (fds, fine) ← openAll mode names
        return (fd :: fds, fine)
      | .error e =>
        complain (inputMessage "tee: " "" name e)
        let (fds, _) ← openAll mode names
        return (fds, false)
  spread (fds : List Fd) (failed : Bool) (piece : Bytes) : Program (Bool × Bool) := do
    let (failed, _) ← forward failed piece
    writeEach piece fds
    return (failed, true)
  writeEach (piece : Bytes) : List Fd → Program Unit
    | [] => return
    | fd :: fds => do
      let _ ← writeAll fd piece
      writeEach piece fds

structure Part where
  /-- count lines, not bytes -/
  lines : Bool
  /-- whether the count has a sign, and which -/
  sign : Option UInt8
  count : Nat
  deriving DecidableEq, Repr

namespace Part

def ofCount? (lines : Bool) (s : Bytes) : Option Part :=
  match s with
  | 45 :: r => (Bytes.toNat? r).map (⟨lines, some 45, ·⟩)
  | 43 :: r => (Bytes.toNat? r).map (⟨lines, some 43, ·⟩)
  | _ => (Bytes.toNat? s).map (⟨lines, none, ·⟩)

def ofArguments? : List Bytes → Part → Option (Part × List Bytes)
  | [], part => some (part, [])
  | [45, 110] :: v :: rest, _ => (ofCount? true v).bind (ofArguments? rest)
  | [45, 99] :: v :: rest, _ => (ofCount? false v).bind (ofArguments? rest)
  | [45, 45] :: rest, part => some (part, rest)
  | (45 :: 110 :: v) :: rest, _ => (ofCount? true v).bind (ofArguments? rest)
  | (45 :: 99 :: v) :: rest, _ => (ofCount? false v).bind (ofArguments? rest)
  | [45, 113] :: rest, part => ofArguments? rest part
  | a :: rest, part =>
    if isOption a then (Bytes.toNat? a.tail).bind fun n => ofArguments? rest ⟨true, none, n⟩
    else (ofArguments? rest part).map fun (part, files) => (part, a :: files)

def standard : Part := ⟨true, none, 10⟩

end Part

/-- What comes up to the `n`-th newline, and how many newlines are missing to that. -/
def firstLines (n : Nat) (s : Bytes) : Bytes × Nat := go n s []
where
  go : Nat → Bytes → Bytes → Bytes × Nat
    | 0, _, taken => (taken.reverse, 0)
    | n, [], taken => (taken.reverse, n)
    | n + 1, c :: s, taken => go (if c = Byte.newline then n else n + 1) s (c :: taken)

def dropLines (n : Nat) (s : Bytes) : Bytes := s.drop (firstLines n s).1.length

def lastLines (n : Nat) (s : Bytes) : Bytes := dropLines ((lines s).length - n) s

/-- Writes a part of each input, under a title if there are several. `copy` writes the part, and
says whether writing failed and whether reading did. -/
def excerpts (program : String) (copy : Part → Fd → Program (Bool × Option Errno))
    (arguments : List Bytes) : Program UInt8 :=
  match Part.ofArguments? arguments Part.standard with
  | none => refuse program
  | some (part, files) => do
    let ((failed, _), fine) ← foldInputs
      (inputMessage (program ++ ": cannot open '") "' for reading") files (false, false)
      (one part (2 ≤ files.length))
    return statusOf (fine && !failed)
where
  one (part : Part) (titled : Bool) (s : Bool × Bool) (name : Bytes) (fd : Fd) :
      Program ((Bool × Bool) × Option Errno) := do
    let shown := if name = standardInput then Bytes.ofAscii "standard input" else name
    let title := Bytes.ofAscii (if s.2 then "\n==> " else "==> ") ++ shown ++ Bytes.ofAscii " <==\n"
    let (failed, _) ← if titled then forward s.1 title else pure (s.1, true)
    let (failedNow, e) ← copy part fd
    return ((failed || failedNow, true), e)

def head (arguments : List Bytes) : Program UInt8 := excerpts "head" start arguments
where
  start (part : Part) (fd : Fd) : Program (Bool × Option Errno) :=
    if part.sign = some Byte.minus then do
      let (s, e) ← readAll fd
      let text := if part.lines then (firstLines ((lines s).length - part.count) s).1
        else s.take (s.length - part.count)
      let (failed, _) ← forward false text
      return (failed, e)
    else if part.count = 0 then return (false, none)
    else do
      let ((failed, _), e) ← foldStream fd (few part.lines) (false, part.count)
      return (failed, e)
  few (inLines : Bool) (s : Bool × Nat) (piece : Bytes) : Program ((Bool × Nat) × Bool) := do
    let (text, missing) := if inLines then firstLines s.2 piece
      else (piece.take s.2, s.2 - piece.length)
    let (failed, more) ← forward s.1 text
    return ((failed, missing), more && 0 < missing)

def tail (arguments : List Bytes) : Program UInt8 := excerpts "tail" rest arguments
where
  rest (part : Part) (fd : Fd) : Program (Bool × Option Errno) := do
    let (s, e) ← readAll fd
    let text := match part.lines, part.sign == some Byte.plus with
      | true, true => dropLines (part.count - 1) s
      | true, false => lastLines part.count s
      | false, true => s.drop (part.count - 1)
      | false, false => s.drop (s.length - part.count)
    let (failed, _) ← forward false text
    return (failed, e)

structure Counts where
  lines : Nat
  words : Nat
  bytes : Nat
  deriving DecidableEq, Repr

namespace Counts

def zero : Counts := ⟨0, 0, 0⟩

def add (a b : Counts) : Counts := ⟨a.lines + b.lines, a.words + b.words, a.bytes + b.bytes⟩

def count (s : Counts × Bool) (piece : Bytes) : Counts × Bool :=
  piece.foldl (fun (n, inWord) c =>
    let word := !Byte.isSpace c
    (⟨if c = Byte.newline then n.lines + 1 else n.lines,
      if word && !inWord then n.words + 1 else n.words, n.bytes + 1⟩, word)) s

def line (options : Bytes) (width : Nat) (name : Bytes) (n : Counts) : Bytes :=
  let wanted (letters : Bytes) : Bool := options = [] || letters.any (options.contains ·)
  let columns := (if wanted [108] then [n.lines] else []) ++
    (if wanted [119] then [n.words] else []) ++ if wanted [99, 109] then [n.bytes] else []
  let column (k : Nat) : Bytes :=
    let digits := Bytes.ofNat k
    List.replicate (width - digits.length) Byte.space ++ digits
  [Byte.space].intercalate (columns.map column) ++
    (if name = [] then [] else Byte.space :: name) ++ [Byte.newline]

end Counts

/-- The column width for the counts of some inputs: a single number has none, else the sizes of the
files decide, and other inputs count as large. -/
def countWidth (options : Bytes) (files : List Bytes) : Program Nat :=
  if options.length = 1 ∧ files.length ≤ 1 then return 1
  else go (if files = [] then [standardInput] else files) 0 1
where
  go : List Bytes → (total least : Nat) → Program Nat
    | [], total, least => return max least (Bytes.ofNat total).length
    | name :: names, total, least => do
      let fd? : Except Errno Fd ← if name = standardInput then pure (.ok Fd.stdin)
        else openFile name .read
      match fd? with
      | .error _ => go names total least
      | .ok fd =>
        let s : Except Errno FileStat ← stat fd
        if name ≠ standardInput then
          let _ ← close fd
        match s with
        | .ok ⟨some _, size, _⟩ => go names (total + size) least
        | _ => go names total 7

def wc (arguments : List Bytes) : Program UInt8 :=
  let (options, files) := splitOptions arguments
  if options.any fun c => c ∉ [108, 119, 99, 109] then refuse "wc"
  else do
    let width ← countWidth options files
    let ((total, failed), fine) ← foldInputs (inputMessage "wc: " "") files (Counts.zero, false)
      (countOne options width (files = []))
    if 2 ≤ files.length then
      let (failed, _) ← forward failed (total.line options width (Bytes.ofAscii "total"))
      return statusOf (fine && !failed)
    return statusOf (fine && !failed)
where
  countOne (options : Bytes) (width : Nat) (unnamed : Bool) (s : Counts × Bool) (name : Bytes)
      (fd : Fd) : Program ((Counts × Bool) × Option Errno) := do
    let ((n, _), e) ← foldStream fd (fun s piece => return (Counts.count s piece, true))
      (Counts.zero, false)
    let (failed, _) ← forward s.2 (n.line options width (if unnamed then [] else name))
    return ((s.1.add n, failed), e)

def numericKey (line : Bytes) : Int :=
  let s := line.dropWhile Byte.isBlank
  let (negative, s) := match s with
    | 45 :: r => (true, r)
    | _ => (false, s)
  let whole := s.takeWhile Byte.isDigit
  let fraction := match s.drop whole.length with
    | 46 :: r => r.takeWhile Byte.isDigit
    | _ => []
  let thousandths := Bytes.leadingNat ((fraction ++ [48, 48, 48]).take 3)
  let value : Int := Bytes.leadingNat whole * 1000 + thousandths
  if negative then -value else value

def lineLe (numeric : Bool) (a b : Bytes) : Bool :=
  if numeric then
    let x := numericKey a
    let y := numericKey b
    if x = y then a.le b else x < y
  else a.le b

def distinct : List Bytes → List Bytes → List Bytes
  | [], kept => kept.reverse
  | l :: ls, kept => if kept.head? = some l then distinct ls kept else distinct ls (l :: kept)

def sort (arguments : List Bytes) : Program UInt8 :=
  let (options, files) := splitOptions arguments
  if options.any fun c => c ∉ [110, 114, 117] then do
    let _ ← refuse "sort"
    return 2
  else do
    let (ls, fine) ← foldInputs (inputMessage "sort: cannot read: " "") files []
      fun ls _ fd => do
        let (s, e) ← readAll fd
        return (ls ++ lines s, e)
    if !fine then return 2
    let sorted := ls.mergeSort (lineLe (options.contains 110))
    let sorted := if options.contains 117 then distinct sorted [] else sorted
    let sorted := if options.contains 114 then sorted.reverse else sorted
    let (failed, _) ← forward false (unlines sorted)
    return if failed then 2 else 0

def characterClasses : List (String × (UInt8 → Bool)) :=
  let isLower (c : UInt8) := 97 ≤ c && c ≤ 122
  let isUpper (c : UInt8) := 65 ≤ c && c ≤ 90
  [("[:lower:]", isLower), ("[:upper:]", isUpper), ("[:digit:]", Byte.isDigit),
    ("[:alpha:]", fun c => isLower c || isUpper c),
    ("[:alnum:]", fun c => isLower c || isUpper c || Byte.isDigit c),
    ("[:space:]", Byte.isSpace), ("[:blank:]", Byte.isBlank)]

def byteRange (a b : UInt8) : Bytes :=
  (List.range (b.toNat + 1 - a.toNat)).map fun i => a + i.toUInt8

def characterSet (s : Bytes) : Bytes := go s.length (unescape s.length s) []
where
  unescape : Nat → Bytes → List (UInt8 × Bool)
    | 0, _ => []
    | n + 1, s => match s with
      | [] => []
      | [c] => [(c, false)]
      | c :: d :: r =>
        if c = Byte.backslash then
          (([(110, 10), (116, 9), (114, 13), (92, 92)].lookup d).getD d, true) :: unescape n r
        else (c, false) :: unescape n (d :: r)
  go : Nat → List (UInt8 × Bool) → List Bytes → Bytes
    | 0, _, sets => sets.reverse.flatten
    | n + 1, s, sets =>
      let text := s.map (·.1)
      match characterClasses.find? fun k => (Bytes.ofAscii k.1).isPrefixOf text with
      | some (name, p) =>
        go n (s.drop name.length) (((List.range 256).map Nat.toUInt8).filter p :: sets)
      | none => match s with
        | (a, _) :: (45, false) :: (b, _) :: r => go n r (byteRange a b :: sets)
        | (a, _) :: r => go n r ([a] :: sets)
        | [] => sets.reverse.flatten

/-- What becomes of a byte whose set is `from`: the byte at the same place in `to`, or the last one
there. -/
def translateByte (source target : Bytes) (c : UInt8) : UInt8 :=
  match source.reverse.idxOf? c with
  | none => c
  | some i => (target[source.length - 1 - i]?).getD (target.getLast?.getD c)

def tr (arguments : List Bytes) : Program UInt8 :=
  let copy (f : Bytes → Bytes) : Program UInt8 := do
    let (failed, _) ← foldStream Fd.stdin (fun failed piece => forward failed (f piece)) false
    return statusOf (!failed)
  match splitOptions arguments with
  | ([], [source, target]) =>
    let table := (List.range 256).map fun i =>
      translateByte (characterSet source) (characterSet target) i.toUInt8
    copy fun piece => piece.map fun c => (table[c.toNat]?).getD c
  | ([100], [deleted]) =>
    let set := characterSet deleted
    copy fun piece => piece.filter fun c => !set.contains c
  | _ => refuse "tr"

end PipeShell.Utility
