import PipeShell.CommandLine.Grammar
import PipeShell.Token.Lexer

/-! The incremental parser: bytes go in by `feed`, command lines and errors come out by `pop`. It
keeps nothing but the bytes that no line has taken yet. A line with an error is dropped as a whole,
and the lines after it stay. Main statement: what `pop` gives out it has paid for in bytes
(`pop_length`), so popping comes to an end. -/
namespace PipeShell

structure Parser where
  buffer : Bytes
  finished : Bool
  deriving DecidableEq, Repr

namespace Parser

def empty : Parser := ⟨[], false⟩

def feed (p : Parser) (s : Bytes) : Parser := { p with buffer := p.buffer ++ s }

/-- Says that no input will follow, which makes a last line without a newline a line. -/
def finish (p : Parser) : Parser := { p with finished := true }

/-- The next command line or error. There is none while no line is complete; lines without a command
are passed over. -/
def pop (p : Parser) : Option (Except ParseError CommandLine) × Parser :=
  if _hp : p.buffer = [] then (none, p)
  else match _h : Lexer.line p.finished p.buffer with
    | none => (none, p)
    | some (ts, rest) =>
      match CommandLine.ofTokens? ts with
      | .error e => (some (.error e), { p with buffer := rest })
      | .ok (some l) => (some (.ok l), { p with buffer := rest })
      | .ok none => pop { p with buffer := rest }
termination_by p.buffer.length
decreasing_by
  have := Lexer.line_length _h
  have := List.length_pos_iff.2 ‹_›
  omega

theorem pop_length {p p' : Parser} {x : Except ParseError CommandLine} (h : p.pop = (some x, p')) :
    p'.buffer.length < p.buffer.length := by
  fun_induction pop p generalizing p' with
  | case1 => simp at h
  | case2 => simp at h
  | case3 p hp ts rest hl e _ =>
    have := Lexer.line_length hl
    have := List.length_pos_iff.2 ‹_›
    rw [← (Prod.mk.inj h).2]; simp only; omega
  | case4 p hp ts rest hl l _ =>
    have := Lexer.line_length hl
    have := List.length_pos_iff.2 ‹_›
    rw [← (Prod.mk.inj h).2]; simp only; omega
  | case5 p hp ts rest hl _ ih =>
    have := Lexer.line_length hl
    have := List.length_pos_iff.2 ‹_›
    have := ih h
    simp only at this; omega

def popAll (p : Parser) : List (Except ParseError CommandLine) × Parser :=
  match _h : p.pop with
  | (none, p') => ([], p')
  | (some x, p') => let (xs, q) := popAll p'; (x :: xs, q)
termination_by p.buffer.length
decreasing_by exact pop_length _h

end Parser

def parseLine (s : Bytes) : Option (Except ParseError CommandLine) :=
  ((Parser.empty.feed s).finish).pop.1

end PipeShell
