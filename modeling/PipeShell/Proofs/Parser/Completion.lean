import PipeShell.Proofs.Parser.Joining

/-! The end of the input. A text that ends within a line can be completed by hand: open quotes are
closed, a backslash that waits for its byte is doubled within quotes and taken away outside them,
and a newline ends the line. Main statement: the completed text gives out, while the input goes on,
what the text gives out when the input ends with it, and a parser that knows of the end leaves
nothing unread (`results_eq_popAll_complete`). -/
namespace PipeShell

/-- The text in whose last line nothing is open any more, made of one whose scan ends in a mode. -/
def Mode.close (m : Mode) (s : Bytes) : Bytes :=
  match m with
  | gap | word | comment => s
  | escape => s.dropLast
  | single => s ++ [Byte.singleQuote]
  | double => s ++ [Byte.doubleQuote]
  | doubleEscape => s ++ [Byte.backslash, Byte.doubleQuote]

theorem Mode.of_read_eq_escape {m : Mode} {c : UInt8} (h : (m.read c).1 = .escape) :
    (m = .gap ∨ m = .word) ∧ c = Byte.backslash := by
  cases m <;> grind [Mode.read, Mode.enter]

namespace Transcript

def complete (s : Bytes) : Bytes := (ofBytes s).scan.mode.close s ++ [Byte.newline]

variable {ls : List (List Token)} {m : Mode} {ts : List Token} {t : Option Token} {s : Bytes}

theorem complete_eq (h : ofBytes s = ⟨ls, ⟨m, ts, t⟩⟩) :
    complete s = m.close s ++ [Byte.newline] := by
  rw [complete, h]

theorem exists_ofBytes_eq (s : Bytes) : ∃ ls m ts t, ofBytes s = ⟨ls, ⟨m, ts, t⟩⟩ :=
  ⟨_, _, _, _, rfl⟩

theorem exists_of_mode_eq_escape (h : ofBytes s = ⟨ls, ⟨.escape, ts, t⟩⟩) :
    ∃ s' m ts' t', s = s' ++ [Byte.backslash] ∧ (m = .gap ∨ m = .word) ∧
      ofBytes s' = ⟨ls, ⟨m, ts', t'⟩⟩ ∧ ts' ++ t'.toList = ts ++ t.toList := by
  obtain rfl | ⟨s, c, rfl⟩ := s.eq_nil_or_concat
  · cases h
  · rw [List.concat_eq_append, ofBytes_append] at h
    obtain ⟨ls', m, ts', t', hs⟩ := exists_ofBytes_eq s
    rw [hs, List.foldl_cons, List.foldl_nil] at h
    have hread : (m.read c).1 = .escape := by
      rw [read] at h
      split at h
      · cases h
      · exact congrArg (·.scan.mode) h
    obtain ⟨hm, rfl⟩ := Mode.of_read_eq_escape hread
    refine ⟨s, m, ts', t', List.concat_eq_append, hm, ?_⟩
    obtain rfl | rfl := hm
    · have h : (⟨ls', ⟨.escape, ts' ++ t'.toList, none⟩⟩ : Transcript) = _ := h
      cases h
      exact ⟨hs, (List.append_nil _).symm⟩
    · have h : (⟨ls', ⟨.escape, ts', t'⟩⟩ : Transcript) = _ := h
      cases h
      exact ⟨hs, rfl⟩

/-- The lines of the completed text are those of the text whose end the input ends. -/
theorem lines_complete (s : Bytes) : (ofBytes (complete s)).lines = (ofBytes s).closed := by
  obtain ⟨ls, m, ts, t, h⟩ := exists_ofBytes_eq s
  rw [complete_eq h, ofBytes_append]
  cases m with
  | gap | word | comment =>
    show ((ofBytes s).read Byte.newline).lines = _
    rw [h]
    rfl
  | single | double | doubleEscape =>
    rw [Mode.close, ofBytes_append, h]
    rfl
  | escape =>
    obtain ⟨s', m, ts', t', rfl, hm, hs', hsettled⟩ := exists_of_mode_eq_escape h
    have hclosed : (⟨ls, ⟨.escape, ts, t⟩⟩ : Transcript).closed = ls ++ [ts' ++ t'.toList] := by
      rw [hsettled]
      rfl
    rw [Mode.close, List.dropLast_concat, hs', h, hclosed]
    obtain rfl | rfl := hm <;> rfl

end Transcript

theorem Scan.line_finished (σ : Scan) (s : Bytes) : σ.line true s ≠ none := by
  induction s generalizing σ with
  | nil => simp [Scan.line]
  | cons c s ih =>
    rw [Scan.line]
    split
    · simp
    · exact ih _

namespace Parser
variable {p q : Parser} {rs : List Request}

theorem finished_pop (p : Parser) : p.pop.2.finished = p.finished := by
  fun_induction pop p with
  | case5 p hp ts rest hl ho ih => exact ih
  | _ => rfl

theorem finished_serve (h : p.finished = true ∨ .finish ∈ rs) : (p.serve rs).2.finished = true := by
  induction rs generalizing p with
  | nil => simpa [serve] using h
  | cons r rs ih =>
    cases r with
    | feed s => exact ih (by simpa [feed] using h)
    | finish => exact ih (.inl rfl)
    | pop => exact ih (by simpa [finished_pop] using h)

theorem buffer_eq_nil_of_pop {b : Bytes} (h : pop ⟨b, true⟩ = (none, q)) : q.buffer = [] := by
  by_cases hb : b = []
  · rw [hb, pop_nil] at h
    rw [← (Prod.mk.inj h).2]
  obtain ⟨⟨ts, r⟩, hl⟩ := Option.ne_none_iff_exists'.1 (Scan.line_finished .start b)
  rw [← Lexer.line_eq_scan] at hl
  have hlt : r.length < b.length := by
    have := Lexer.line_length hl
    have := List.length_pos_iff.2 hb
    omega
  rw [pop_of_line hl] at h
  split at h
  · cases h
  · exact buffer_eq_nil_of_pop h
termination_by b.length

open Transcript in
/-- What a text gives out when the input ends with it, the completed text gives out while the input
goes on. And when a parser that has been told of the end gives out nothing, it has read
everything. -/
theorem results_eq_popAll_complete (s : Bytes) :
    results s = (empty.feed (complete s)).popAll.1 ∧
    ∀ rs, .finish ∈ rs → (empty.serve rs).2.pop.1 = none →
      (empty.serve rs).2.pop.2.buffer = [] := by
  refine ⟨?_, fun rs hrs hnone => ?_⟩
  · rw [results_eq, ← lines_complete]
    exact outcomes_lines (complete s)
  · have hf := finished_serve (p := empty) (.inr hrs)
    generalize (empty.serve rs).2 = p at hf hnone
    obtain ⟨b, f⟩ := p
    obtain rfl : f = true := hf
    exact buffer_eq_nil_of_pop (Prod.ext hnone rfl)

/-- A backslash within double quotes is kept at the end of the input, as if it had been doubled; and
an open quote in a comment leaves nothing behind. -/
theorem results_complete_quoted :
    results (Bytes.ofAscii "echo \"a\\") =
      (empty.feed (Bytes.ofAscii "echo \"a\\\\\"\n")).popAll.1 ∧
    results (Bytes.ofAscii "echo \"a\\") =
      [.ok ⟨[.command ⟨Bytes.ofAscii "echo", [Bytes.ofAscii "a\\"]⟩], none⟩] ∧
    (empty.serve [.feed (Bytes.ofAscii "#'"), .finish]).2.pop.2.buffer = [] := by
  have hline : Lexer.line true (Bytes.ofAscii "#'") = some ([], []) := by
    rw [Lexer.line_eq_scan]
    rfl
  refine ⟨(results_eq_popAll_complete _).1, ?_, (results_eq_popAll_complete []).2 _ (by simp) ?_⟩
  · rw [results_eq]
    rfl
  · show (pop ⟨Bytes.ofAscii "#'", true⟩).1 = none
    rw [pop_of_line hline, outcome?_nil, pop_nil]

end Parser

end PipeShell
