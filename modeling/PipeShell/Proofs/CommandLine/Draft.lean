import PipeShell.CommandLine.Grammar

/-! Drafts and the tokens they were made from. Every draft that tokens lead to has commands followed
by their pipes, a command that may have begun and a redirection that may have come, and from these
the tokens can be written down again (`Draft.source`). So every sequence of tokens is the source of
a draft, or begins with one and goes on with a token that the draft refuses (`Draft.exists_source`).
Main statement: the tokens that make a command line are those of commands joined by pipes
(`CommandLine.ofTokens?_eq_ok_some_iff`). -/
namespace PipeShell

def Command.tokens (c : Command) : List Token := .word c.name :: c.arguments.map .word

def Redirect.tokens (r : Redirect) : List Token := [.redirect r.mode, .word r.target]

def Redirection.tokens : Redirection → List Token
  | absent => []
  | awaits m => [.redirect m]
  | given r => r.tokens

def piped (cs : List Command) : List Token := cs.flatMap fun c => c.tokens ++ [.pipe]

namespace Draft

def of (cs : List Command) (current : Option Command) (ρ : Redirection) : Draft :=
  ⟨cs.flatMap fun c => [.command c, .pipe], current, ρ⟩

def source (cs : List Command) (current : Option Command) (ρ : Redirection) : List Token :=
  piped cs ++ current.elim [] Command.tokens ++ ρ.tokens

variable {cs : List Command} {current : Option Command} {ρ : Redirection} {x : Token}
  {nodes : List Node}

theorem foldlM_words (c : Command) (ws : List Bytes) :
    (ws.map Token.word).foldlM add ⟨nodes, some c, .absent⟩ =
      .ok ⟨nodes, some { c with arguments := c.arguments ++ ws }, .absent⟩ := by
  induction ws generalizing c with
  | nil => simp; rfl
  | cons w ws ih =>
    have h : add ⟨nodes, some c, .absent⟩ (.word w) =
        .ok ⟨nodes, some { c with arguments := c.arguments ++ [w] }, .absent⟩ := rfl
    simp [h, bind, Except.bind, ih]

theorem foldlM_command (c : Command) :
    c.tokens.foldlM add ⟨nodes, none, .absent⟩ = .ok ⟨nodes, some c, .absent⟩ := by
  have h : add ⟨nodes, none, .absent⟩ (.word c.name) =
      .ok ⟨nodes, some ⟨c.name, []⟩, .absent⟩ := rfl
  simp [Command.tokens, h, bind, Except.bind, foldlM_words]

theorem foldlM_piped (cs : List Command) :
    (piped cs).foldlM add ⟨nodes, none, .absent⟩ =
      .ok ⟨nodes ++ (of cs none .absent).nodes, none, .absent⟩ := by
  induction cs generalizing nodes with
  | nil => simp [piped, of]; rfl
  | cons c cs ih =>
    have h : add ⟨nodes, some c, .absent⟩ .pipe =
        .ok ⟨nodes ++ [.command c, .pipe], none, .absent⟩ := rfl
    rw [piped] at ih
    simp [piped, foldlM_command, h, bind, Except.bind, ih, of]

theorem foldlM_source (cs : List Command) (current : Option Command) (ρ : Redirection) :
    (source cs current ρ).foldlM add empty = .ok (of cs current ρ) := by
  have hp : (piped cs).foldlM add empty = .ok (of cs none .absent) := foldlM_piped cs
  have hc : (current.elim [] Command.tokens).foldlM add (of cs none .absent) =
      .ok (of cs current .absent) := by
    cases current with
    | none => rfl
    | some c => exact foldlM_command c
  have hr : ρ.tokens.foldlM add (of cs current .absent) = .ok (of cs current ρ) := by
    cases ρ <;> rfl
  simp [source, hp, hc, hr, bind, Except.bind]

theorem source_awaits (cs : List Command) (current : Option Command) (m : RedirectMode) :
    source cs current (.awaits m) = source cs current .absent ++ [.redirect m] := by
  simp [source, Redirection.tokens]

theorem source_given (cs : List Command) (current : Option Command) (r : Redirect) :
    source cs current (.given r) = source cs current (.awaits r.mode) ++ [.word r.target] := by
  simp [source, Redirection.tokens, Redirect.tokens]

theorem source_step (cs : List Command) (current : Option Command) (ρ : Redirection) (x : Token) :
    (∃ cs' current' ρ', source cs current ρ ++ [x] = source cs' current' ρ') ∨
      ∃ e, (of cs current ρ).add x = .error e := by
  cases ρ with
  | given r => right; cases x <;> exact ⟨_, rfl⟩
  | awaits m =>
    cases x with
    | word w => exact .inl ⟨cs, current, .given ⟨w, m⟩, (source_given cs current ⟨w, m⟩).symm⟩
    | _ => exact .inr ⟨_, rfl⟩
  | absent =>
    cases x with
    | word w =>
      left
      cases current with
      | none =>
        exact ⟨cs, some ⟨w, []⟩, .absent, by simp [source, Command.tokens, Redirection.tokens]⟩
      | some c =>
        exact ⟨cs, some { c with arguments := c.arguments ++ [w] }, .absent, by
          simp [source, Command.tokens, Redirection.tokens]⟩
    | pipe =>
      cases current with
      | none => exact .inr ⟨_, rfl⟩
      | some c =>
        exact .inl ⟨cs ++ [c], none, .absent, by simp [source, piped, Redirection.tokens]⟩
    | redirect m => exact .inl ⟨cs, current, .awaits m, (source_awaits cs current m).symm⟩
    | unsupported op => exact .inr ⟨_, rfl⟩

theorem exists_source_append (cs : List Command) (current : Option Command) (ρ : Redirection)
    (ts : List Token) :
    (∃ cs' current' ρ', source cs current ρ ++ ts = source cs' current' ρ') ∨
      ∃ cs' current' ρ' x e rest, (of cs' current' ρ').add x = .error e ∧
        source cs current ρ ++ ts = source cs' current' ρ' ++ x :: rest := by
  induction ts generalizing cs current ρ with
  | nil => exact .inl ⟨cs, current, ρ, by simp⟩
  | cons x ts ih =>
    obtain ⟨cs', current', ρ', h⟩ | ⟨e, he⟩ := source_step cs current ρ x
    · have := ih cs' current' ρ'
      rwa [← h, List.append_assoc, List.singleton_append] at this
    · exact .inr ⟨cs, current, ρ, x, e, ts, he, rfl⟩

/-- Tokens are the source of a draft up to their end or up to the first token refused. -/
theorem exists_source (ts : List Token) :
    (∃ cs current ρ, ts = source cs current ρ) ∨
      ∃ cs current ρ x e rest, (of cs current ρ).add x = .error e ∧
        ts = source cs current ρ ++ x :: rest :=
  exists_source_append [] none .absent ts

theorem ofTokens?_source (cs : List Command) (current : Option Command) (ρ : Redirection) :
    CommandLine.ofTokens? (source cs current ρ) = (of cs current ρ).finish := by
  simp [CommandLine.ofTokens?, foldlM_source, bind, Except.bind]

theorem ofTokens?_source_append {e : ParseError} (h : (of cs current ρ).add x = .error e)
    (rest : List Token) :
    CommandLine.ofTokens? (source cs current ρ ++ x :: rest) = .error e := by
  simp [CommandLine.ofTokens?, foldlM_source, bind, Except.bind, h]

end Draft

namespace CommandLine
open Draft

/-- The line of the commands `cs`, each one piped into the next. -/
def pipeline (cs : List Command) (r : Option Redirect) : CommandLine :=
  ⟨(cs.map Node.command).intersperse .pipe, r⟩

def pipelineTokens (cs : List Command) (r : Option Redirect) : List Token :=
  List.intercalate [.pipe] (cs.map Command.tokens) ++ r.elim [] Redirect.tokens

theorem intersperse_concat {α : Type} (sep a : α) (as : List α) :
    (as ++ [a]).intersperse sep = as.flatMap (fun b => [b, sep]) ++ [a] := by
  induction as with
  | nil => rfl
  | cons b as ih =>
    cases h : as ++ [a] with
    | nil => simp at h
    | cons c l =>
      rw [h] at ih
      rw [List.cons_append, h, List.intersperse_cons_cons, ih]
      rfl

theorem pipelineTokens_cons (c : Command) (cs : List Command) (r : Option Redirect) :
    pipelineTokens (c :: cs) r =
      c.tokens ++ (cs.flatMap (fun d => .pipe :: d.tokens) ++ r.elim [] Redirect.tokens) := by
  induction cs generalizing c with
  | nil => simp [pipelineTokens, List.intercalate]
  | cons d cs ih =>
    have h := ih d
    simp only [pipelineTokens, List.intercalate, List.map_cons] at h ⊢
    rw [List.intersperse_cons_cons, List.flatten_cons, List.flatten_cons, List.append_assoc,
      List.append_assoc, h]
    simp

theorem source_some (cs : List Command) (c : Command) (r : Option Redirect) :
    source cs (some c) (r.elim .absent .given) = pipelineTokens (cs ++ [c]) r := by
  have h : (r.elim .absent .given : Redirection).tokens = r.elim [] Redirect.tokens := by
    cases r <;> rfl
  simp [source, pipelineTokens, piped, h, List.intercalate, intersperse_concat, List.flatMap_map,
    List.flatten_eq_flatMap, List.flatMap_assoc]

theorem finish_some (cs : List Command) (c : Command) (r : Option Redirect) :
    (of cs (some c) (r.elim .absent .given)).finish = .ok (some (pipeline (cs ++ [c]) r)) := by
  cases r <;> simp [of, finish, pipeline, intersperse_concat, List.flatMap_map]

theorem ofTokens?_pipelineTokens {cs : List Command} (hcs : cs ≠ []) (r : Option Redirect) :
    ofTokens? (pipelineTokens cs r) = .ok (some (pipeline cs r)) := by
  obtain ⟨cs, c, rfl⟩ := (List.eq_nil_or_concat cs).resolve_left hcs
  rw [List.concat_eq_append, ← source_some, ofTokens?_source, finish_some]

theorem finish_eq_ok_some {cs : List Command} {current : Option Command} {ρ : Redirection}
    {l : CommandLine} (h : (of cs current ρ).finish = .ok (some l)) :
    ∃ c, current = some c ∧ ∃ r : Option Redirect, ρ = r.elim .absent .given := by
  cases ρ with
  | awaits m => cases h
  | absent =>
    cases current with
    | some c => exact ⟨c, rfl, none, rfl⟩
    | none => cases cs <;> cases h
  | given r =>
    cases current with
    | some c => exact ⟨c, rfl, some r, rfl⟩
    | none => cases h

theorem ofTokens?_eq_ok_some_iff {ts : List Token} {l : CommandLine} :
    ofTokens? ts = .ok (some l) ↔
      ∃ cs r, cs ≠ [] ∧ ts = pipelineTokens cs r ∧ l = pipeline cs r := by
  constructor
  · intro h
    obtain ⟨cs, current, ρ, rfl⟩ | ⟨cs, current, ρ, x, e, rest, he, rfl⟩ := exists_source ts
    · rw [ofTokens?_source] at h
      obtain ⟨c, rfl, r, rfl⟩ := finish_eq_ok_some h
      rw [finish_some] at h
      cases h
      exact ⟨cs ++ [c], r, by simp, source_some cs c r, rfl⟩
    · rw [ofTokens?_source_append he] at h
      cases h
  · intro h
    obtain ⟨cs, r, hcs, rfl, rfl⟩ := h
    exact ofTokens?_pipelineTokens hcs r

end CommandLine

end PipeShell
