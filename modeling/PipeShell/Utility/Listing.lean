import PipeShell.Utility.Filter

/-! Lists of the names in directories: one a line, or in columns. -/
namespace PipeShell.Utility

open Program

def lineWidth : Nat := 80

def columnWidth : Nat := 3

namespace Columns

def rows (n columns : Nat) : Nat := (n + columns - 1) / columns

def widths (names : List Bytes) (k : Nat) : List Nat :=
  let height := rows names.length k
  (List.range k).map fun i =>
    let column := (names.drop (i * height)).take height
    let gap := if i + 1 = k then 0 else 2
    column.foldl (fun w name => max w (name.length + gap)) columnWidth

def best (names : List Bytes) : Nat :=
  let most := min names.length (lineWidth / columnWidth + 1)
  let fits (k : Nat) : Bool := (widths names k).foldl (· + ·) 0 < lineWidth
  (((List.range most).map (most - ·)).find? fits).getD 1

/-- Blanks from one place to another, with tabs where they reach far enough. -/
def indent (n start stop : Nat) : Bytes :=
  match n with
  | 0 => []
  | n + 1 =>
    if stop ≤ start then []
    else if (start + 1) / 8 < stop / 8 then Byte.tab :: indent n (start + 8 - start % 8) stop
    else Byte.space :: indent n (start + 1) stop

def row (position : Nat) : List (Bytes × Nat) → Bytes
  | [] => []
  | [(name, _)] => name
  | (name, width) :: rest =>
    name ++ indent width (position + name.length) (position + width) ++ row (position + width) rest

def layout (names : List Bytes) : Bytes :=
  let k := best names
  let height := rows names.length k
  let columnWidths := widths names k
  unlines <| (List.range height).map fun i =>
    row 0 ((List.range k).filterMap fun j =>
      (names[j * height + i]?).map fun name => (name, (columnWidths[j]?).getD columnWidth))

end Columns

def shown (options : Bytes) (names : List Bytes) : List Bytes :=
  let dots : List Bytes := if options.contains 97 then [[46], [46, 46]] else []
  let names := if options.contains 97 || options.contains 65 then names
    else names.filter fun name => name.head? ≠ some 46
  (dots ++ names).mergeSort Bytes.le

def list (program : String) (inColumns : Bool) (arguments : List Bytes) : Program UInt8 :=
  let (options, operands) := splitOptions arguments
  if options.any fun c => c ∉ [97, 65, 49, 67] then do
    let _ ← refuse program
    return 2
  else do
    let inColumns := (inColumns || options.contains 67) && !options.contains 49
    let render (names : List Bytes) : Bytes :=
      if names = [] then [] else if inColumns then Columns.layout names else unlines names
    let operands := (if operands = [] then [[46]] else operands).mergeSort Bytes.le
    let (files, directories, fine) ← examine operands
    let titled := 2 ≤ operands.length
    let sections := directories.map fun (name, names) =>
      (if titled then name ++ [Byte.colon, Byte.newline] else []) ++ render (shown options names)
    let sections := if files = [] then sections else render files :: sections
    let status ← sayAll program ([Byte.newline].intercalate sections)
    return if fine then status else 2
where
  examine : List Bytes → Program (List Bytes × List (Bytes × List Bytes) × Bool)
    | [] => return ([], [], true)
    | name :: rest => do
      let (files, directories, fine) ← examine rest
      match ← listDirectory name with
      | .ok names => return (files, (name, names) :: directories, fine)
      | .error e =>
        if e = Errno.notDirectory ∧ name.getLast? ≠ some Byte.slash then
          return (name :: files, directories, fine)
        else
          complain (Bytes.ofAscii (program ++ ": cannot access '") ++ name ++
            Bytes.ofAscii ("': " ++ e.description))
          return (files, directories, false)

end PipeShell.Utility
