import PipeShell.Proofs.CommandLine.Draft
import PipeShell.Proofs.Parser.Popping

/-! The lines that a parser makes. They are lines of commands joined by pipes, and of such a line
the list of its commands tells whether it has pipes (`CommandLine.hasPipes_pipeline`). Main
statement: whatever requests a parser serves, the command lines that it gives out are such lines
(`Parser.pipeline_of_serve`). -/
namespace PipeShell

namespace CommandLine

variable (r : Option Redirect)

@[simp] theorem redirect_pipeline (cs : List Command) : (pipeline cs r).redirect = r := rfl

@[simp] theorem commands_pipeline (cs : List Command) : (pipeline cs r).commands = cs := by
  show ((cs.map Node.command).intersperse .pipe).filterMap Node.command? = cs
  induction cs with
  | nil => rfl
  | cons c cs ih =>
    cases cs with
    | nil => rfl
    | cons d cs =>
      rw [List.map_cons, List.map_cons, List.intersperse_cons_cons, ← List.map_cons]
      exact congrArg (c :: ·) ih

theorem hasPipes_pipeline (cs : List Command) :
    (pipeline cs r).hasPipes = true ↔ 2 ≤ cs.length := by
  match cs with
  | [] => simp [pipeline, hasPipes, hasPipes.go]
  | [c] => simp [pipeline, hasPipes, hasPipes.go]
  | c :: d :: cs => simp [pipeline, hasPipes, hasPipes.go]

end CommandLine

namespace Parser

def IsPipeline (x : Except ParseError CommandLine) : Prop :=
  ∀ l, x = .ok l → ∃ cs r, cs ≠ [] ∧ l = CommandLine.pipeline cs r

theorem isPipeline_of_pop {p p' : Parser} {x : Except ParseError CommandLine}
    (h : p.pop = (some x, p')) : IsPipeline x := by
  fun_induction pop p with
  | case1 => cases h
  | case2 => cases h
  | case3 p _ ts rest _ e he =>
    cases h
    intro l hl
    cases hl
  | case4 p _ ts rest _ l hl =>
    cases h
    rintro l hx
    cases hx
    obtain ⟨cs, r, hcs, -, hl⟩ := CommandLine.ofTokens?_eq_ok_some_iff.1 hl
    exact ⟨cs, r, hcs, hl⟩
  | case5 p _ ts rest _ _ ih => exact ih h

theorem pipeline_of_serve {p : Parser} {rs : List Request} {l : CommandLine}
    (h : .ok l ∈ (p.serve rs).1) : ∃ cs r, cs ≠ [] ∧ l = CommandLine.pipeline cs r := by
  induction rs generalizing p with
  | nil => cases h
  | cons q rs ih =>
    cases q with
    | feed s => exact ih h
    | finish => exact ih h
    | pop =>
      rw [serve] at h
      obtain h | h := List.mem_append.1 h
      · exact isPipeline_of_pop (Prod.ext (Option.mem_toList.1 h) rfl) l rfl
      · exact ih h

end Parser

end PipeShell
