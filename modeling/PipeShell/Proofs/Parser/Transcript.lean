import PipeShell.Proofs.Parser.Chunking

/-! A whole text scanned once. The lexer begins anew at the start of a line with every pop and looks
at the bytes of an incomplete line again and again; the transducer sees every byte once and keeps
what it knows. Main statement: popping gives out what the lines of the one scan make, however the
text arrives (`parser_eq_transducer`). -/
namespace PipeShell

/-- A text that is being scanned: the tokens of its complete lines, and the line that has begun. -/
structure Transcript where
  lines : List (List Token)
  scan : Scan
  deriving DecidableEq, Repr

namespace Transcript

def read (τ : Transcript) (c : UInt8) : Transcript :=
  if τ.scan.mode.endsAt c then ⟨τ.lines ++ [τ.scan.settled], .start⟩
  else { τ with scan := τ.scan.step c }

def ofBytes (s : Bytes) : Transcript := s.foldl read ⟨[], .start⟩

def closed (τ : Transcript) : List (List Token) := τ.lines ++ [τ.scan.closed]

def outcomes (ls : List (List Token)) : List (Except ParseError CommandLine) :=
  ls.filterMap CommandLine.outcome?

theorem outcomes_append (ls ms : List (List Token)) :
    outcomes (ls ++ ms) = outcomes ls ++ outcomes ms := by
  simp [outcomes]

theorem outcomes_singleton (ts : List Token) :
    outcomes [ts] = (CommandLine.outcome? ts).toList := by
  cases h : CommandLine.outcome? ts <;> simp [outcomes, h]

variable {ls : List (List Token)} {σ : Scan} {s r : Bytes} {ts : List Token}

theorem read_of_not_endsAt {c : UInt8} (he : ¬σ.mode.endsAt c = true) :
    read ⟨ls, σ⟩ c = ⟨ls, σ.step c⟩ := by
  simp [read, he]

theorem foldl_read_of_no_line (ls : List (List Token)) (h : σ.line false s = none) :
    s.foldl read ⟨ls, σ⟩ = ⟨ls, s.foldl Scan.step σ⟩ ∧
      σ.line true s = some ((s.foldl Scan.step σ).closed, []) := by
  induction s generalizing σ with
  | nil => simp [Scan.line]
  | cons c s ih =>
    rw [Scan.line] at h ⊢
    split at h
    · cases h
    · rename_i he
      rw [if_neg he, List.foldl_cons, List.foldl_cons, read_of_not_endsAt he]
      exact ih h

theorem foldl_read_of_line (h : σ.line false s = some (ts, r)) :
    s.foldl read ⟨ls, σ⟩ = r.foldl read ⟨ls ++ [ts], .start⟩ := by
  induction s generalizing σ with
  | nil => simp [Scan.line] at h
  | cons c s ih =>
    rw [Scan.line] at h
    split at h
    · rename_i he
      obtain ⟨rfl, rfl⟩ := Prod.mk.inj (Option.some.inj h)
      simp [read, he]
    · rename_i he
      rw [List.foldl_cons, read_of_not_endsAt he, ih h]

theorem outcomes_foldl_read (s : Bytes) (ls : List (List Token)) :
    outcomes (s.foldl read ⟨ls, .start⟩).lines = outcomes ls ++ (Parser.popAll ⟨s, false⟩).1 ∧
      outcomes (s.foldl read ⟨ls, .start⟩).closed =
        outcomes ls ++ (Parser.popAll ⟨s, true⟩).1 := by
  cases hl : Lexer.line false s with
  | none =>
    -- no complete line is left: what the scan holds is the line that the end of the input ends
    have ht := hl
    rw [Lexer.line_eq_scan] at ht
    obtain ⟨hr, hc⟩ := foldl_read_of_no_line ls ht
    rw [← Lexer.line_eq_scan] at hc
    rw [hr, closed, Parser.popAll_of_no_line hl, Parser.popAll_of_line hc, Parser.popAll_nil]
    simp [outcomes_append, outcomes_singleton]
  | some l =>
    obtain ⟨ts, r⟩ := l
    have ht := hl
    rw [Lexer.line_eq_scan] at ht
    have hlt := Lexer.line_length_lt hl
    have hf : Lexer.line true s = some (ts, r) := by
      simpa using Lexer.line_append hl true []
    obtain ⟨h1, h2⟩ := outcomes_foldl_read r (ls ++ [ts])
    rw [foldl_read_of_line ht, h1, h2, Parser.popAll_of_line hl, Parser.popAll_of_line hf]
    simp [outcomes_append, outcomes_singleton]
termination_by s.length

theorem outcomes_lines (s : Bytes) :
    outcomes (ofBytes s).lines = (Parser.popAll ⟨s, false⟩).1 := by
  exact (outcomes_foldl_read s []).1

theorem outcomes_closed (s : Bytes) :
    outcomes (ofBytes s).closed = (Parser.popAll ⟨s, true⟩).1 := by
  exact (outcomes_foldl_read s []).2

end Transcript

/-- Lexer and transducer read the same tokens off a line and leave the same rest, in a finished
input and in one that goes on. A parser gives out what the lines of one scan over its whole input
make: those that are complete while the input goes on, and after its end the last one too. -/
theorem parser_eq_transducer :
    (∀ (f : Bool) (s : Bytes), Lexer.line f s = Scan.start.line f s) ∧
    ∀ chunks : List (Bytes × Nat),
      let x := Parser.empty.serve (Parser.schedule chunks)
      let τ := Transcript.ofBytes (Parser.text chunks)
      x.1 ++ x.2.popAll.1 = Transcript.outcomes τ.lines ∧
        x.1 ++ x.2.finish.popAll.1 = Transcript.outcomes τ.closed := by
  refine ⟨Lexer.line_eq_scan, fun chunks => ?_⟩
  have key : ∀ f, (Parser.popAll ⟨Parser.text chunks, f⟩).1 =
      (Parser.empty.serve (Parser.schedule chunks)).1 ++
        (Parser.popAll ⟨(Parser.empty.serve (Parser.schedule chunks)).2.buffer, f⟩).1 := by
    intro f
    have h := (Parser.popAll_text_append chunks f []).2
    simp only [List.append_nil] at h
    rw [h]
  have hf := (Parser.popAll_text_append chunks false []).1
  refine ⟨?_, ?_⟩
  · rw [Transcript.outcomes_lines, key]
    generalize Parser.empty.serve (Parser.schedule chunks) = x at hf ⊢
    obtain ⟨xs, b, g⟩ := x
    subst hf
    rfl
  · rw [Transcript.outcomes_closed, key]
    rfl

end PipeShell
