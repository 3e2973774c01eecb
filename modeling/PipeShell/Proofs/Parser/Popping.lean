import PipeShell.Parser

/-! What a parser gives out, line by line: popping reads a line, drops it and gives out what its
tokens make (`popAll_of_line`). With that no proof has to open `pop` or `popAll` again. Then the
requests that a parser serves one after the other. -/
namespace PipeShell

/-- What is given out for a line of these tokens: a line without a command passes in silence. -/
def CommandLine.outcome? (ts : List Token) : Option (Except ParseError CommandLine) :=
  match ofTokens? ts with
  | .error e => some (.error e)
  | .ok none => none
  | .ok (some l) => some (.ok l)

namespace Parser
/-- All lines and errors of a script that is taken as complete. -/
def results (s : Bytes) : List (Except ParseError CommandLine) :=
  ((Parser.empty.feed s).finish).popAll.1

variable {f : Bool} {b r : Bytes} {ts : List Token}

theorem outcome?_nil : CommandLine.outcome? [] = none := rfl

theorem pop_nil (f : Bool) : pop ⟨[], f⟩ = (none, ⟨[], f⟩) := by
  rw [pop]; simp

theorem pop_of_no_line (h : Lexer.line f b = none) : pop ⟨b, f⟩ = (none, ⟨b, f⟩) := by
  rw [pop]
  split
  · rfl
  · split
    · rfl
    · simp_all

theorem pop_of_line (h : Lexer.line f b = some (ts, r)) :
    pop ⟨b, f⟩ = match CommandLine.outcome? ts with
      | some x => (some x, ⟨r, f⟩)
      | none => pop ⟨r, f⟩ := by
  by_cases hb : b = []
  · -- only a finished input has a line without bytes, and that line is empty
    subst hb
    have hf : f = true := by
      cases f
      · simp [Lexer.line] at h
      · rfl
    subst hf
    simp only [Lexer.line, if_true, Option.some.injEq, Prod.mk.injEq] at h
    obtain ⟨rfl, rfl⟩ := h
    rw [outcome?_nil]
  · rw [pop, dif_neg hb]
    split
    · simp_all
    · rename_i ts' r' h'
      rw [h, Option.some.injEq, Prod.mk.injEq] at h'
      obtain ⟨rfl, rfl⟩ := h'
      unfold CommandLine.outcome?
      split <;> simp_all

theorem popAll_of_pop_none {p p' : Parser} (h : p.pop = (none, p')) : p.popAll = ([], p') := by
  rw [popAll]; split <;> simp_all

theorem popAll_of_pop_some {p p' : Parser} {x : Except ParseError CommandLine}
    (h : p.pop = (some x, p')) : p.popAll = (x :: p'.popAll.1, p'.popAll.2) := by
  rw [popAll]; split <;> simp_all

theorem popAll_nil (f : Bool) : popAll ⟨[], f⟩ = ([], ⟨[], f⟩) := popAll_of_pop_none (pop_nil f)

theorem popAll_of_no_line (h : Lexer.line f b = none) : popAll ⟨b, f⟩ = ([], ⟨b, f⟩) :=
  popAll_of_pop_none (pop_of_no_line h)

theorem popAll_congr {p q : Parser} (h : p.pop = q.pop) : p.popAll = q.popAll := by
  cases hq : q.pop with
  | mk x q' =>
    rw [hq] at h
    cases x with
    | none => rw [popAll_of_pop_none h, popAll_of_pop_none hq]
    | some x => rw [popAll_of_pop_some h, popAll_of_pop_some hq]

theorem popAll_of_line (h : Lexer.line f b = some (ts, r)) :
    popAll ⟨b, f⟩ =
      ((CommandLine.outcome? ts).toList ++ (popAll ⟨r, f⟩).1, (popAll ⟨r, f⟩).2) := by
  have hp := pop_of_line h
  cases ho : CommandLine.outcome? ts with
  | none =>
    rw [ho] at hp
    simp [popAll_congr hp]
  | some x =>
    rw [ho] at hp
    simp [popAll_of_pop_some hp]

inductive Request
  | feed (s : Bytes)
  | finish
  | pop
  deriving DecidableEq, Repr

/-- Serves requests in order: all that was given out, and the parser after them. -/
def serve (p : Parser) : List Request → List (Except ParseError CommandLine) × Parser
  | [] => ([], p)
  | .feed s :: rs => serve (p.feed s) rs
  | .finish :: rs => serve p.finish rs
  | .pop :: rs => (p.pop.1.toList ++ (serve p.pop.2 rs).1, (serve p.pop.2 rs).2)

def Request.bytes : Request → Bytes
  | .feed s => s
  | .finish | .pop => []

end Parser

end PipeShell
