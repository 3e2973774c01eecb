import PipeShell.Script.Syntax

/-! Reading scripts: first into tokens, then into commands. A script is read line by line, so that
what stands before a mistake is carried out. -/
namespace PipeShell.Script

inductive Token
  | word (w : Word)
  | redirect (fd : Option Fd) (operator : Bytes)
  | operator (s : Bytes)
  | newline
  /-- a quote that is not closed, or an expansion that is not known -/
  | mistake
  deriving DecidableEq, Repr

namespace Lexer

def isNameStart (c : UInt8) : Bool := (65 ≤ c && c ≤ 90) || (97 ≤ c && c ≤ 122) || c == 95

def isNameRest (c : UInt8) : Bool := isNameStart c || Byte.isDigit c

def isSpecial (c : UInt8) : Bool := c ∈ [64, 42, 35, 36, 63, 45, 33]

def parameter (quoted : Bool) (s : Bytes) : Option (Part × Bytes) :=
  match s with
  | 123 :: r =>
    let name := r.takeWhile (· ≠ 125)
    let known := (name ≠ [] && name.all isNameRest) ||
      (name.length == 1 && name.all isSpecial)
    if known ∧ name.length < r.length then some (.parameter name quoted, r.drop (name.length + 1))
    else none
  | 40 :: _ => none
  | c :: r =>
    if isSpecial c || Byte.isDigit c then some (.parameter [c] quoted, r)
    else if isNameStart c then
      let name := s.takeWhile isNameRest
      some (.parameter name quoted, s.drop name.length)
    else some (.text [36], s)
  | [] => some (.text [36], [])

def doubleQuoted : Nat → Bytes → Word → Option (Word × Bytes)
  | 0, _, _ => none
  | n + 1, s, w => match s with
    | [] => none
    | 34 :: r => some (w, r)
    | 92 :: c :: r =>
      if c = Byte.newline then doubleQuoted n r w
      else if c ∈ [34, 36, 92, 96] then doubleQuoted n r (w ++ [.text [c]])
      else doubleQuoted n r (w ++ [.text [92, c]])
    | 96 :: _ => none
    | 36 :: r => match parameter true r with
      | some (part, r) => doubleQuoted n r (w ++ [part])
      | none => none
    | c :: r => doubleQuoted n r (w ++ [.text [c]])

def isOperatorStart (c : UInt8) : Bool := c ∈ [10, 32, 9, 59, 38, 124, 40, 41, 60, 62]

def word : Nat → Bytes → Word → Option (Word × Bytes)
  | 0, _, _ => none
  | n + 1, s, w => match s with
    | [] => some (w, [])
    | 39 :: r =>
      let inside := r.takeWhile (· ≠ Byte.singleQuote)
      if inside.length < r.length then word n (r.drop (inside.length + 1)) (w ++ [.text inside])
      else none
    | 34 :: r => match doubleQuoted (r.length + 1) r [.text []] with
      | some (inside, r) => word n r (w ++ inside)
      | none => none
    | [92] => some (w ++ [.text [92]], [])
    | 92 :: c :: r => if c = Byte.newline then word n r w else word n r (w ++ [.text [c]])
    | 96 :: _ => none
    | 36 :: r => match parameter false r with
      | some (part, r) => word n r (w ++ [part])
      | none => none
    | c :: r => if isOperatorStart c then some (w, s) else word n r (w ++ [.text [c]])

def operator? (s : Bytes) : Option Bytes :=
  ["&&", "||", ";;", ";", "&", "|", "(", ")"].map Bytes.ofAscii |>.find? (·.isPrefixOf s)

def redirect? (s : Bytes) : Option Bytes :=
  [">>", ">&", ">|", ">", "<&", "<"].map Bytes.ofAscii |>.find? (·.isPrefixOf s)

def tokens : Nat → Bytes → List Token
  | 0, _ => []
  | n + 1, s => match s with
    | [] => []
    | c :: r =>
      if Byte.isBlank c then tokens n r
      else if c = Byte.newline then .newline :: tokens n r
      else if c = Byte.hash then tokens n (s.dropWhile (· ≠ Byte.newline))
      else if c = Byte.backslash ∧ r.head? = some Byte.newline then tokens n r.tail
      else match operator? s with
        | some o => .operator o :: tokens n (s.drop o.length)
        | none =>
          let digits := s.takeWhile Byte.isDigit
          match redirect? (s.drop digits.length) with
          | some o =>
            .redirect (Bytes.toNat? digits) o :: tokens n (s.drop (digits.length + o.length))
          | none => match word (s.length + 1) s [] with
            | some (w, r) => .word w :: tokens n r
            | none => [.mistake]

end Lexer

def Word.literal? (w : Word) : Option Bytes :=
  (w.mapM textOf?).map List.flatten
where
  textOf? : Part → Option Bytes
    | .text s => some s
    | .parameter _ _ => none

namespace Parser

abbrev Parse := Option (Command × List Token)

def reserved? (t : Token) : Option String :=
  match t with
  | .word w => w.literal?.bind fun s =>
    ["while", "until", "do", "done", "if", "then", "elif", "else", "fi", "for", "\x7b", "\x7d",
      "!"].find? fun k => Bytes.ofAscii k = s
  | _ => none

def isEnd (t : Token) : Bool :=
  match reserved? t with
  | some k => k ∈ ["do", "done", "then", "elif", "else", "fi", "\x7d"]
  | none => t = .operator [41]

def assignment? (w : Word) : Option (Bytes × Word) :=
  let isPlain : Part → Bool := fun | .text [c] => c ≠ 61 | _ => false
  match w.dropWhile isPlain with
  | .text [61] :: value =>
    let name := ((w.takeWhile isPlain).filterMap fun | .text s => some s | _ => none).flatten
    if name.head?.any Lexer.isNameStart && name.all Lexer.isNameRest then some (name, value)
    else none
  | _ => none

def target? (operator : Bytes) (w : Word) : Fd × Target :=
  if operator = [60] then (0, .input w)
  else if operator = [62, 62] then (1, .output .append w)
  else if operator = [62, 38] then (1, .duplicate w)
  else if operator = [60, 38] then (0, .duplicate w)
  else (1, .output .truncate w)

def simple : List Token → List (Bytes × Word) → List Word → List Redirection → Parse
  | .redirect fd o :: .word w :: ts, as, ws, rs =>
    let (standard, target) := target? o w
    simple ts as ws (rs ++ [⟨fd.getD standard, target⟩])
  | .redirect _ _ :: _, _, _, _ => none
  | .mistake :: _, _, _, _ => none
  | .word w :: ts, as, ws, rs =>
    match ws, assignment? w with
    | [], some a => simple ts (as ++ [a]) ws rs
    | _, _ => simple ts as (ws ++ [w]) rs
  | ts, as, ws, rs => if as = [] ∧ ws = [] ∧ rs = [] then none else some (.simple as ws rs, ts)

def skipNewlines : List Token → List Token
  | .newline :: ts => skipNewlines ts
  | ts => ts

def expect (k : String) (ts : List Token) : Option (List Token) :=
  match ts with
  | t :: ts => if reserved? t = some k then some ts else none
  | [] => none

inductive Level
  /-- commands up to a word that ends a list -/
  | list
  /-- commands up to the end of the line -/
  | line
  | andOr
  | pipeline
  | command
  /-- what follows the word if -/
  | branch
  deriving DecidableEq, Repr

abbrev Reader := Level → List Token → Parse

def lineRest (read : Reader) (c : Command) (ts : List Token) : Parse :=
  let again (c : Command) (ts : List Token) : Parse := match ts with
    | [] => some (c, [])
    | .newline :: ts => some (c, ts)
    | t :: ts =>
      if isEnd t then some (c, t :: ts)
      else (read .line (t :: ts)).map fun (d, ts) => (.sequence c d, ts)
  match ts with
  | .operator [59] :: ts => again c ts
  | .operator [38] :: ts => again (.background c) ts
  | [] => some (c, [])
  | .newline :: ts => some (c, ts)
  | t :: ts => if isEnd t then some (c, t :: ts) else none

/-- The rest of a list of alternatives; each one belongs to all that stands before it. -/
def andOrRest (read : Reader) : Nat → Command → List Token → Parse
  | 0, _, _ => none
  | k + 1, c, ts => match ts with
    | .operator [38, 38] :: ts => do
      let (d, ts) ← read .pipeline (skipNewlines ts)
      andOrRest read k (.conjunction c d) ts
    | .operator [124, 124] :: ts => do
      let (d, ts) ← read .pipeline (skipNewlines ts)
      andOrRest read k (.disjunction c d) ts
    | _ => some (c, ts)

def block (read : Reader) (ts : List Token) : Parse := do
  let (body, ts) ← read .list (← expect "do" ts)
  return (body, ← expect "done" ts)

def loop (read : Reader) (success : Bool) (ts : List Token) : Parse := do
  let (condition, ts) ← read .list ts
  let (body, ts) ← block read ts
  return (.loop success condition body, ts)

def wordsOf : List Token → List Word
  | .word w :: ts => w :: wordsOf ts
  | _ => []

def each (read : Reader) (ts : List Token) : Parse :=
  match ts with
  | .word name :: key :: ts => do
    if key ≠ .word [.text [105], .text [110]] then none
    let words := wordsOf ts
    let ts := skipNewlines ((ts.drop words.length).dropWhile (· = .operator [59]))
    let (body, ts) ← block read ts
    return (.each ((Word.literal? name).getD []) words body, ts)
  | _ => none

def command (read : Reader) (ts : List Token) : Parse :=
  match ts with
  | .operator [40] :: ts => do
    match ← read .list ts with
    | (c, .operator [41] :: ts) => return (.subshell c, ts)
    | _ => none
  | t :: r => match reserved? t with
    | some "while" => loop read true r
    | some "until" => loop read false r
    | some "if" => read .branch r
    | some "for" => each read r
    | some "\x7b" => do
      let (c, ts) ← read .list r
      return (c, ← expect "\x7d" ts)
    | some _ => none
    | none => simple ts [] [] []
  | [] => none

def branch (read : Reader) (ts : List Token) : Parse := do
  let (condition, ts) ← read .list ts
  let (yes, ts) ← read .list (← expect "then" ts)
  match ts with
  | t :: r => match reserved? t with
    | some "fi" => return (.branch condition yes .nothing, r)
    | some "else" =>
      let (no, ts) ← read .list r
      return (.branch condition yes no, ← expect "fi" ts)
    | some "elif" =>
      let (no, ts) ← read .branch r
      return (.branch condition yes no, ts)
    | _ => none
  | [] => none

def pipeline (read : Reader) (ts : List Token) : Parse :=
  match ts with
  | [] => none
  | t :: r =>
    if reserved? t = some "!" then (read .pipeline r).map fun (c, ts) => (.negation c, ts)
    else do
      match ← read .command ts with
      | (c, .operator [124] :: ts) =>
        let (d, ts) ← read .pipeline (skipNewlines ts)
        return (.pipeline c d, ts)
      | (c, ts) => return (c, ts)

def list (read : Reader) (ts : List Token) : Parse :=
  match skipNewlines ts with
  | [] => some (.nothing, [])
  | t :: ts =>
    if isEnd t then some (.nothing, t :: ts)
    else do
      let (c, ts) ← read .line (t :: ts)
      let (d, ts) ← read .list ts
      return (.sequence c d, ts)

def parse : (n : Nat) → Reader
  | 0, _, _ => none
  | n + 1, .list, ts => list (parse n) ts
  | n + 1, .line, ts => do
    let (c, ts) ← parse n .andOr ts
    lineRest (parse n) c ts
  | n + 1, .andOr, ts => do
    let (c, ts) ← parse n .pipeline ts
    andOrRest (parse n) (ts.length + 1) c ts
  | n + 1, .pipeline, ts => pipeline (parse n) ts
  | n + 1, .command, ts => command (parse n) ts
  | n + 1, .branch, ts => branch (parse n) ts

end Parser

/-- The commands of a script, line by line, up to the first mistake. A line with a mistake in it is
one as a whole. -/
def commands (s : Bytes) : List Command :=
  let ts := Lexer.tokens (s.length + 1) s
  go (ts.length + 1) ts
where
  go : Nat → List Token → List Command
    | 0, _ => []
    | n + 1, ts => match Parser.skipNewlines ts with
      | [] => []
      | ts => match Parser.parse (10 * ts.length + 10) .line ts with
        | some (c, rest) =>
          let read := ts.take (ts.length - rest.length)
          if rest = [] ∨ read.getLast? = some .newline then c :: go n rest else [.invalid]
        | none => [.invalid]

end PipeShell.Script
