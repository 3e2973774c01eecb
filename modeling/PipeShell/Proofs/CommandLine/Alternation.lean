import Mathlib.Data.List.Chain
import PipeShell.Proofs.CommandLine.Rendering
import PipeShell.Proofs.CommandLine.Views

/-! Nodes that alternate. What can be asked of a line without going through it, the number of its
pipes, whether it has any and its only command, follows from the list of its commands if commands
and pipes take turns. Main statements: the lines whose nodes alternate are the lines of commands
joined by pipes (`CommandLine.alternates_iff`), and there is an input for each of them
(`Parser.exists_serve_eq`). -/
namespace PipeShell

/-- Nodes that begin and end with a command, and of which two neighbours are never of one kind. -/
structure Alternates (nodes : List Node) : Prop where
  first : ∃ c, nodes.head? = some (.command c)
  last : ∃ c, nodes.getLast? = some (.command c)
  turns : nodes.IsChain fun a b => a = .pipe ↔ b ≠ .pipe

variable {c : Command} {nodes : List Node}

theorem alternates_singleton (c : Command) : Alternates [.command c] :=
  ⟨⟨c, rfl⟩, ⟨c, rfl⟩, .singleton _⟩

theorem alternates_cons_pipe_iff :
    Alternates (.command c :: .pipe :: nodes) ↔ Alternates nodes := by
  constructor
  · rintro ⟨-, ⟨d, hlast⟩, hturns⟩
    cases nodes with
    | nil => cases hlast
    | cons a nodes =>
      rw [List.isChain_cons_cons, List.isChain_cons_cons] at hturns
      obtain ⟨-, hturn, hturns⟩ := hturns
      cases a with
      | pipe => exact absurd rfl (hturn.1 rfl)
      | command e => exact ⟨⟨e, rfl⟩, ⟨d, by simpa using hlast⟩, hturns⟩
  · rintro ⟨⟨d, hfirst⟩, ⟨e, hlast⟩, hturns⟩
    obtain ⟨nodes, rfl⟩ := List.head?_eq_some_iff.1 hfirst
    refine ⟨⟨c, rfl⟩, ⟨e, by simpa using hlast⟩, ?_⟩
    simpa only [List.isChain_cons_cons] using ⟨by simp, by simp, hturns⟩

namespace CommandLine

variable (r : Option Redirect)

theorem nodes_pipeline_cons_cons (c d : Command) (cs : List Command) :
    (pipeline (c :: d :: cs) r).nodes = .command c :: .pipe :: (pipeline (d :: cs) r).nodes := rfl

theorem alternates_pipeline (c : Command) (cs : List Command) :
    Alternates (pipeline (c :: cs) r).nodes := by
  induction cs generalizing c with
  | nil => exact alternates_singleton c
  | cons d cs ih =>
    rw [nodes_pipeline_cons_cons]
    exact alternates_cons_pipe_iff.2 (ih d)

theorem exists_commands : ∀ {nodes : List Node}, Alternates nodes →
    ∃ c cs, nodes = ((c :: cs).map Node.command).intersperse .pipe
  | [], h => by
    obtain ⟨⟨c, hc⟩, -⟩ := h
    cases hc
  | .pipe :: _, h => by
    obtain ⟨⟨c, hc⟩, -⟩ := h
    cases hc
  | [.command c], _ => ⟨c, [], rfl⟩
  | .command c :: .command d :: nodes, h => by
    -- two commands side by side
    have hturn := (List.isChain_cons_cons.1 h.turns).1
    simp at hturn
  | .command c :: .pipe :: nodes, h => by
    obtain ⟨d, cs, rfl⟩ := exists_commands (alternates_cons_pipe_iff.1 h)
    exact ⟨c, d :: cs, rfl⟩

theorem alternates_iff {l : CommandLine} :
    Alternates l.nodes ↔ ∃ cs r, cs ≠ [] ∧ l = pipeline cs r := by
  constructor
  · intro h
    obtain ⟨c, cs, hn⟩ := exists_commands h
    exact ⟨c :: cs, l.redirect, List.cons_ne_nil c cs, by rw [pipeline, ← hn]⟩
  · rintro ⟨cs, r, hcs, rfl⟩
    obtain ⟨c, cs, rfl⟩ := List.exists_cons_of_ne_nil hcs
    exact alternates_pipeline r c cs

theorem count_pipe_pipeline (c : Command) (cs : List Command) :
    (pipeline (c :: cs) r).nodes.count .pipe = cs.length := by
  induction cs generalizing c with
  | nil => rfl
  | cons d cs ih => simp [nodes_pipeline_cons_cons, ih]

theorem soleCommand_pipeline (cs : List Command) :
    (pipeline cs r).soleCommand = some c ↔ cs = [c] := by
  match cs with
  | [] => simp [pipeline, soleCommand]
  | [d] => simp [pipeline, soleCommand]
  | d :: e :: cs => simp [pipeline, soleCommand]

theorem hasPipes_eq_not_isSome_soleCommand (c : Command) (cs : List Command) :
    (pipeline (c :: cs) r).hasPipes = !(pipeline (c :: cs) r).soleCommand.isSome := by
  cases cs <;> rfl

end CommandLine

namespace Parser

theorem outcome?_pipelineTokens (c : Command) (cs : List Command) (r : Option Redirect) :
    CommandLine.outcome? (CommandLine.pipelineTokens (c :: cs) r) =
      some (.ok (CommandLine.pipeline (c :: cs) r)) := by
  rw [CommandLine.outcome?, CommandLine.ofTokens?_pipelineTokens (List.cons_ne_nil c cs)]

theorem serve_text (l : WrittenLine) : (empty.serve [.feed l.text, .pop]).1 = [.ok l.value] := by
  have hpop := pop_of_line (Lexer.line_text l false [])
  rw [outcome?_pipelineTokens, List.append_nil] at hpop
  show (pop ⟨l.text, false⟩).1.toList ++ [] = [.ok l.value]
  rw [hpop]
  rfl

/-- Every line whose nodes alternate is the one line of some text. -/
theorem exists_serve_eq {l : CommandLine} (h : Alternates l.nodes) :
    ∃ s, (empty.serve [.feed s, .pop]).1 = [.ok l] := by
  obtain ⟨cs, r, hcs, rfl⟩ := CommandLine.alternates_iff.1 h
  obtain ⟨c, cs, rfl⟩ := List.exists_cons_of_ne_nil hcs
  exact ⟨_, by rw [serve_text (.ofPipeline c cs r), WrittenLine.value_ofPipeline]⟩

end Parser

end PipeShell
