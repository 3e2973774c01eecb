import Mathlib.Computability.Language
import Mathlib.Order.CompletePartialOrder
import PipeShell.Proofs.CommandLine.Draft
import PipeShell.Proofs.Parser.Popping

/-! The grammar of lines as regular languages over tokens: one for each thing that can become of a
line. With `W` a word, `P` a pipe, `R` a redirection sign and `U` an operator that is refused, the
command lines are `W+ (P W+)* (R W)?`, and each error has a language of its own
(`Verdict.language`). Main statement: a line has just the verdict in whose language its tokens are
(`verdict_iff_mem_language`). -/
namespace PipeShell
open scoped Computability

namespace LineGrammar

def word : Language Token := {t | ∃ w, t = [.word w]}
def pipe : Language Token := {[.pipe]}
def redirect : Language Token := {t | ∃ m, t = [.redirect m]}
def unsupported (op : Operator) : Language Token := {[.unsupported op]}

def words : Language Token := word * word∗

def startingWith (l : Language Token) : Language Token := {t | ∃ u ∈ l, ∃ v, t = u ++ v}

end LineGrammar

inductive Verdict
  | blank
  | commandLine
  | refused (e : ParseError)
  deriving DecidableEq, Repr

namespace Verdict
open LineGrammar

def ofResult : Except ParseError (Option CommandLine) → Verdict
  | .ok none => blank
  | .ok (some _) => commandLine
  | .error e => refused e

/-- The token sequences with a verdict, `words * pipe * (words * pipe)∗` standing for `(W+ P)+`. -/
def language : Verdict → Language Token
  | blank => 1
  | commandLine => words * (pipe * words)∗ * (1 + redirect * word)
  | refused .pipeAtStart => startingWith pipe
  | refused .pipeAfterPipe => startingWith (words * pipe * (words * pipe)∗ * pipe)
  | refused (.unsupported op) =>
    startingWith ((words * pipe)∗ * word∗ * (1 + redirect) * unsupported op)
  | refused .badRedirect =>
    (words * pipe)∗ * word∗ * redirect +
      startingWith ((words * pipe)∗ * word∗ * redirect * (pipe + redirect)) +
      startingWith ((words * pipe)∗ * word∗ * redirect * word * redirect)
  | refused .afterRedirect =>
    startingWith
      ((words * pipe)∗ * word∗ * redirect * word * (word + pipe + ⨆ op, unsupported op))
  | refused .missingCommand =>
    words * pipe * (words * pipe)∗ + (words * pipe)∗ * redirect * word

end Verdict

namespace LineGrammar
open Draft

section
variable {α β γ : Type} {l m : Language α} {g : β → List α} {h : γ → List α}

/-- The words of `l` are those that `g` spells. -/
def Spells (l : Language α) (g : β → List α) : Prop := ∀ t, t ∈ l ↔ ∃ b, t = g b

theorem spells_singleton (x : List α) : Spells {x} fun _ : Unit => x :=
  fun _ => ⟨fun hx => ⟨(), hx⟩, fun ⟨_, hx⟩ => hx⟩

theorem Spells.mul (hl : Spells l g) (hm : Spells m h) :
    Spells (l * m) fun x : β × γ => g x.1 ++ h x.2 := by
  intro t
  rw [Language.mem_mul]
  constructor
  · intro ht
    obtain ⟨u, hu, v, hv, rfl⟩ := ht
    obtain ⟨b, rfl⟩ := (hl u).1 hu
    obtain ⟨c, rfl⟩ := (hm v).1 hv
    exact ⟨(b, c), rfl⟩
  · intro ht
    obtain ⟨⟨b, c⟩, rfl⟩ := ht
    exact ⟨g b, (hl _).2 ⟨b, rfl⟩, h c, (hm _).2 ⟨c, rfl⟩, rfl⟩

theorem Spells.kstar (hl : Spells l g) : Spells l∗ fun bs : List β => bs.flatMap g := by
  intro t
  rw [Language.mem_kstar]
  constructor
  · intro ht
    obtain ⟨us, rfl, hu⟩ := ht
    induction us with
    | nil => exact ⟨[], rfl⟩
    | cons u us ih =>
      obtain ⟨bs, hbs⟩ := ih fun y hy => hu y (List.mem_cons_of_mem u hy)
      obtain ⟨b, rfl⟩ := (hl u).1 (hu u List.mem_cons_self)
      refine ⟨b :: bs, ?_⟩
      simp only [List.flatten_cons, hbs, List.flatMap_cons]
  · intro ht
    obtain ⟨bs, rfl⟩ := ht
    refine ⟨bs.map g, List.flatMap_def, ?_⟩
    intro y hy
    obtain ⟨b, -, rfl⟩ := List.mem_map.1 hy
    exact (hl _).2 ⟨b, rfl⟩

theorem Spells.congr (hl : Spells l g) (hg : ∀ b, ∃ c, g b = h c) (hh : ∀ c, ∃ b, h c = g b) :
    Spells l h := by
  intro t
  rw [hl t]
  constructor
  · intro ht
    obtain ⟨b, rfl⟩ := ht
    exact hg b
  · intro ht
    obtain ⟨c, rfl⟩ := ht
    exact hh c

end

theorem spells_word : Spells word fun w => [.word w] := fun _ => Iff.rfl

theorem spells_redirect : Spells redirect fun m => [.redirect m] := fun _ => Iff.rfl

theorem spells_pipe : Spells pipe fun _ : Unit => [.pipe] := spells_singleton _

theorem spells_unsupported (op : Operator) :
    Spells (unsupported op) fun _ : Unit => [.unsupported op] :=
  spells_singleton _

theorem spells_kstar_word : Spells word∗ fun ws : List Bytes => ws.map .word := by
  have h := spells_word.kstar
  simpa only [List.map_eq_flatMap] using h

theorem spells_words : Spells words Command.tokens :=
  (spells_word.mul spells_kstar_word).congr (fun x => ⟨⟨x.1, x.2⟩, rfl⟩)
    fun c => ⟨(c.name, c.arguments), rfl⟩

theorem spells_words_pipe : Spells (words * pipe) fun c : Command => c.tokens ++ [.pipe] :=
  (spells_words.mul spells_pipe).congr (fun x => ⟨x.1, rfl⟩) fun c => ⟨(c, ()), rfl⟩

theorem spells_heads : Spells (words * pipe)∗ piped := spells_words_pipe.kstar

theorem spells_heads_words : Spells ((words * pipe)∗ * words)
    fun x : List Command × Command => source x.1 (some x.2) .absent := by
  have h := spells_heads.mul spells_words
  simpa [source, Redirection.tokens] using h

theorem spells_open : Spells ((words * pipe)∗ * word∗)
    fun x : List Command × Option Command => source x.1 x.2 .absent := by
  refine (spells_heads.mul spells_kstar_word).congr ?_ ?_
  · intro x
    obtain ⟨cs, ws⟩ := x
    cases ws with
    | nil => exact ⟨(cs, none), by simp [source, Redirection.tokens]⟩
    | cons w ws =>
      exact ⟨(cs, some ⟨w, ws⟩), by simp [source, Redirection.tokens, Command.tokens]⟩
  · intro x
    obtain ⟨cs, current⟩ := x
    cases current with
    | none => exact ⟨(cs, []), by simp [source, Redirection.tokens]⟩
    | some c =>
      exact ⟨(cs, c.name :: c.arguments), by simp [source, Redirection.tokens, Command.tokens]⟩

theorem spells_awaits : Spells ((words * pipe)∗ * word∗ * redirect)
    fun x : (List Command × Option Command) × RedirectMode => source x.1.1 x.1.2 (.awaits x.2) := by
  have h := spells_open.mul spells_redirect
  simpa only [← source_awaits] using h

theorem spells_given : Spells ((words * pipe)∗ * word∗ * redirect * word)
    fun x : (List Command × Option Command) × Redirect => source x.1.1 x.1.2 (.given x.2) :=
  (spells_awaits.mul spells_word).congr
    (fun x => ⟨(x.1.1, ⟨x.2, x.1.2⟩), (source_given x.1.1.1 x.1.1.2 ⟨x.2, x.1.2⟩).symm⟩)
    fun x => ⟨((x.1, x.2.mode), x.2.target), source_given x.1.1 x.1.2 x.2⟩

theorem spells_nonempty_heads : Spells (words * pipe * (words * pipe)∗)
    fun x : Command × List Command => source (x.1 :: x.2) none .absent := by
  have h := spells_words_pipe.mul spells_heads
  simpa [source, piped, Redirection.tokens] using h

theorem spells_target : Spells (redirect * word) Redirect.tokens :=
  (spells_redirect.mul spells_word).congr (fun x => ⟨⟨x.2, x.1⟩, rfl⟩)
    fun r => ⟨(r.mode, r.target), rfl⟩

theorem spells_heads_target : Spells ((words * pipe)∗ * redirect * word)
    fun x : List Command × Redirect => source x.1 none (.given x.2) := by
  have h := spells_heads.mul spells_target
  rw [← mul_assoc] at h
  simpa [source, Redirection.tokens] using h

theorem nil_notMem_words_pipe : [] ∉ words * pipe := by
  intro h
  obtain ⟨c, h⟩ := (spells_words_pipe _).1 h
  simp at h

theorem words_mul_kstar : words * (pipe * words)∗ = (words * pipe)∗ * words := by
  rw [← Language.self_eq_mul_add_iff nil_notMem_words_pipe]
  calc words * (pipe * words)∗
      = words * (1 + pipe * words * (pipe * words)∗) := by
        rw [Language.one_add_self_mul_kstar_eq_kstar]
    _ = words * pipe * (words * (pipe * words)∗) + words := by
        rw [mul_add, mul_one, add_comm]
        simp only [mul_assoc]

theorem spells_heads_words_target : Spells ((words * pipe)∗ * words * (redirect * word))
    fun x : (List Command × Command) × Redirect => source x.1.1 (some x.1.2) (.given x.2) := by
  have h := spells_heads_words.mul spells_target
  simpa [source, Redirection.tokens] using h

theorem mem_commandLine {t : List Token} :
    t ∈ words * (pipe * words)∗ * (1 + redirect * word) ↔
      t ∈ (words * pipe)∗ * words ∨ t ∈ (words * pipe)∗ * words * (redirect * word) := by
  rw [words_mul_kstar, mul_add, mul_one, Language.mem_add]

end LineGrammar

namespace Verdict
open LineGrammar Draft

theorem source_mem_language (cs : List Command) (current : Option Command) (ρ : Redirection) :
    source cs current ρ ∈ (ofResult (of cs current ρ).finish).language := by
  cases ρ with
  | awaits m => exact .inl (.inl ((spells_awaits _).2 ⟨((cs, current), m), rfl⟩))
  | absent =>
    cases current with
    | some c => exact mem_commandLine.2 (.inl ((spells_heads_words _).2 ⟨(cs, c), rfl⟩))
    | none =>
      cases cs with
      | nil => exact rfl
      | cons c cs => exact .inl ((spells_nonempty_heads _).2 ⟨(c, cs), rfl⟩)
  | given r =>
    cases current with
    | some c =>
      exact mem_commandLine.2 (.inr ((spells_heads_words_target _).2 ⟨((cs, c), r), rfl⟩))
    | none => exact .inr ((spells_heads_target _).2 ⟨(cs, r), rfl⟩)

theorem append_mem_startingWith {l m : Language Token} {u : List Token} {x : Token} (hu : u ∈ l)
    (hx : [x] ∈ m) (rest : List Token) : u ++ x :: rest ∈ startingWith (l * m) :=
  ⟨u ++ [x], Language.append_mem_mul hu hx, rest, by simp⟩

theorem source_append_mem_language {cs : List Command} {current : Option Command}
    {ρ : Redirection} {x : Token} {e : ParseError} (h : (of cs current ρ).add x = .error e)
    (rest : List Token) : source cs current ρ ++ x :: rest ∈ (refused e).language := by
  have hword : ∀ w, [.word w] ∈ word := fun w => ⟨w, rfl⟩
  have hsign : ∀ m, [.redirect m] ∈ redirect := fun m => ⟨m, rfl⟩
  have hpipe : [.pipe] ∈ pipe := rfl
  have hop : ∀ op, [.unsupported op] ∈ unsupported op := fun _ => rfl
  cases ρ with
  | given r =>
    have hs := (spells_given _).2 ⟨((cs, current), r), rfl⟩
    cases x with
    | redirect m => cases h; exact .inr (append_mem_startingWith hs (hsign m) rest)
    | word w => cases h; exact append_mem_startingWith hs (.inl (.inl (hword w))) rest
    | pipe => cases h; exact append_mem_startingWith hs (.inl (.inr hpipe)) rest
    | unsupported op =>
      cases h
      exact append_mem_startingWith hs (.inr (Language.mem_iSup.2 ⟨op, hop op⟩)) rest
  | awaits m =>
    have hs := (spells_awaits _).2 ⟨((cs, current), m), rfl⟩
    cases x with
    | word w => cases h
    | redirect n => cases h; exact .inl (.inr (append_mem_startingWith hs (.inr (hsign n)) rest))
    | pipe => cases h; exact .inl (.inr (append_mem_startingWith hs (.inl hpipe) rest))
    | unsupported op =>
      cases h
      refine append_mem_startingWith ?_ (hop op) rest
      rw [mul_add]
      exact .inr hs
  | absent =>
    have hs := (spells_open _).2 ⟨(cs, current), rfl⟩
    cases x with
    | word w => cases h
    | redirect n => cases h
    | unsupported op =>
      cases h
      refine append_mem_startingWith ?_ (hop op) rest
      rw [mul_add, mul_one]
      exact .inl hs
    | pipe =>
      cases current with
      | some c => cases h
      | none =>
        cases cs with
        | nil => cases h; exact ⟨[.pipe], hpipe, rest, rfl⟩
        | cons c cs =>
          obtain rfl : ParseError.pipeAfterPipe = e := Except.error.inj h
          have hn := (spells_nonempty_heads _).2 ⟨(c, cs), rfl⟩
          exact append_mem_startingWith hn hpipe rest

theorem mem_language (t : List Token) : t ∈ (ofResult (CommandLine.ofTokens? t)).language := by
  obtain ⟨cs, current, ρ, rfl⟩ | ⟨cs, current, ρ, x, e, rest, h, rfl⟩ := exists_source t
  · rw [ofTokens?_source]
    exact source_mem_language cs current ρ
  · rw [ofTokens?_source_append h]
    exact source_append_mem_language h rest

theorem refused_of_add_eq_error {cs : List Command} {current : Option Command}
    {ρ : Redirection} {x : Token} {e : ParseError} (h : (of cs current ρ).add x = .error e)
    (rest : List Token) :
    ofResult (CommandLine.ofTokens? (source cs current ρ ++ [x] ++ rest)) = refused e := by
  rw [List.append_assoc, List.singleton_append, ofTokens?_source_append h]
  rfl

theorem ofResult_of_mem_language {v : Verdict} {t : List Token} (h : t ∈ v.language) :
    ofResult (CommandLine.ofTokens? t) = v := by
  cases v with
  | blank => cases h; rfl
  | commandLine =>
    cases mem_commandLine.1 h with
    | inl h =>
      obtain ⟨⟨cs, c⟩, rfl⟩ := (spells_heads_words _).1 h
      rw [ofTokens?_source]; rfl
    | inr h =>
      obtain ⟨⟨⟨cs, c⟩, r⟩, rfl⟩ := (spells_heads_words_target _).1 h
      rw [ofTokens?_source]; rfl
  | refused e =>
    cases e with
    | pipeAtStart =>
      obtain ⟨_, rfl, rest, rfl⟩ := h
      rfl
    | pipeAfterPipe =>
      obtain ⟨u, hu, rest, rfl⟩ := h
      obtain ⟨⟨⟨c, cs⟩, _⟩, rfl⟩ := (spells_nonempty_heads.mul spells_pipe u).1 hu
      exact refused_of_add_eq_error rfl rest
    | unsupported op =>
      obtain ⟨u, hu, rest, rfl⟩ := h
      rw [mul_add, mul_one, add_mul] at hu
      cases hu with
      | inl hu =>
        obtain ⟨⟨⟨cs, current⟩, _⟩, rfl⟩ := (spells_open.mul (spells_unsupported op) u).1 hu
        exact refused_of_add_eq_error rfl rest
      | inr hu =>
        obtain ⟨⟨⟨⟨cs, current⟩, m⟩, _⟩, rfl⟩ :=
          (spells_awaits.mul (spells_unsupported op) u).1 hu
        exact refused_of_add_eq_error rfl rest
    | badRedirect =>
      obtain (h | h) | h := h
      · obtain ⟨⟨⟨cs, current⟩, m⟩, rfl⟩ := (spells_awaits _).1 h
        rw [ofTokens?_source]; rfl
      · obtain ⟨u, hu, rest, rfl⟩ := h
        rw [mul_add] at hu
        cases hu with
        | inl hu =>
          obtain ⟨⟨⟨⟨cs, current⟩, m⟩, _⟩, rfl⟩ := (spells_awaits.mul spells_pipe u).1 hu
          exact refused_of_add_eq_error rfl rest
        | inr hu =>
          obtain ⟨⟨⟨⟨cs, current⟩, m⟩, n⟩, rfl⟩ := (spells_awaits.mul spells_redirect u).1 hu
          exact refused_of_add_eq_error rfl rest
      · obtain ⟨u, hu, rest, rfl⟩ := h
        obtain ⟨⟨⟨⟨cs, current⟩, r⟩, m⟩, rfl⟩ := (spells_given.mul spells_redirect u).1 hu
        exact refused_of_add_eq_error rfl rest
    | afterRedirect =>
      obtain ⟨u, hu, rest, rfl⟩ := h
      rw [mul_add, mul_add, Language.mul_iSup] at hu
      obtain (hu | hu) | hu := hu
      · obtain ⟨⟨⟨⟨cs, current⟩, r⟩, w⟩, rfl⟩ := (spells_given.mul spells_word u).1 hu
        exact refused_of_add_eq_error rfl rest
      · obtain ⟨⟨⟨⟨cs, current⟩, r⟩, _⟩, rfl⟩ := (spells_given.mul spells_pipe u).1 hu
        exact refused_of_add_eq_error rfl rest
      · obtain ⟨op, hu⟩ := Language.mem_iSup.1 hu
        obtain ⟨⟨⟨⟨cs, current⟩, r⟩, _⟩, rfl⟩ :=
          (spells_given.mul (spells_unsupported op) u).1 hu
        exact refused_of_add_eq_error rfl rest
    | missingCommand =>
      cases h with
      | inl h =>
        obtain ⟨⟨c, cs⟩, rfl⟩ := (spells_nonempty_heads _).1 h
        rw [ofTokens?_source]; rfl
      | inr h =>
        obtain ⟨⟨cs, r⟩, rfl⟩ := (spells_heads_target _).1 h
        rw [ofTokens?_source]; rfl

end Verdict

/-- What becomes of a line is decided by the language its tokens are in: every sequence of tokens is
in just one. A command line is that of the commands its tokens write, joined by pipes. Popping gives
out what the tokens of the first line make and goes on with the rest. -/
theorem verdict_iff_mem_language (ts : List Token) :
    (∀ v, Verdict.ofResult (CommandLine.ofTokens? ts) = v ↔ ts ∈ v.language) ∧
    (∃! v : Verdict, ts ∈ v.language) ∧
    (∀ l, CommandLine.ofTokens? ts = .ok (some l) ↔ ∃ cs r, cs ≠ [] ∧
      ts = CommandLine.pipelineTokens cs r ∧ l = CommandLine.pipeline cs r) ∧
    ∀ (f : Bool) (s rest : Bytes), Lexer.line f s = some (ts, rest) →
      (Parser.popAll ⟨s, f⟩).1 =
        (CommandLine.outcome? ts).toList ++ (Parser.popAll ⟨rest, f⟩).1 := by
  refine ⟨?_, ?_, ?_, ?_⟩
  · intro v
    constructor
    · intro hv
      rw [← hv]
      exact Verdict.mem_language ts
    · exact Verdict.ofResult_of_mem_language
  · refine ⟨_, Verdict.mem_language ts, ?_⟩
    intro v hv
    exact (Verdict.ofResult_of_mem_language hv).symm
  · intro l
    exact CommandLine.ofTokens?_eq_ok_some_iff
  · intro f s rest h
    rw [Parser.popAll_of_line h]

end PipeShell
