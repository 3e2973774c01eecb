import PipeShell.Proofs.CommandLine.Alternation
import PipeShell.Proofs.Shell.Dispatch

/-! What evaluation relies on in a line. A pipeline opens a link fewer than the line has commands
and never looks at the pipes between them. Of a line without pipes the first command is run, and if
there is none the line is taken for an empty one. Main statement: on the lines that a parser makes
the views of the line agree, so that this is right, and these are all the lines whose nodes
alternate (`parsed_views_agree`). -/
namespace PipeShell

open Program

def Event.opensLink : Event → Bool
  | ⟨.pipe, r⟩ => match (r : Except Errno (Fd × Fd)) with
    | .ok _ => true
    | .error _ => false
  | _ => false

def linksOpened (es : List Event) : Nat := es.countP Event.opensLink

variable {s : State} {l : CommandLine} {es fs : List Event}

theorem linksOpened_append : linksOpened (es ++ fs) = linksOpened es + linksOpened fs :=
  List.countP_append

theorem linksOpened_openings (ls : List Link) : linksOpened (openings ls) = ls.length := by
  induction ls with
  | nil => rfl
  | cons k ls ih => exact (List.countP_cons_of_pos rfl).trans (congrArg (· + 1) ih)

theorem linksOpened_of_ne_pipe (h : ∀ e ∈ es, e.call ≠ .pipe) : linksOpened es = 0 := by
  refine List.countP_eq_zero.2 fun e he => ?_
  obtain ⟨c, r⟩ := e
  have hc : c ≠ .pipe := h _ he
  cases c <;> first | exact Bool.false_ne_true | exact absurd rfl hc

theorem linksOpened_cons_error (e : Errno) :
    linksOpened (⟨.pipe, .error e⟩ :: es) = linksOpened es :=
  List.countP_cons_of_neg Bool.false_ne_true

/-- How far the shell can have come when it opens links and then goes on with `f`: not to the last
link yet, to `f` with all of them, or to `f` with an error. -/
theorem reaches_openMany_cases {α : Type} {opened : List Link} {n : Nat} {q : Program α}
    {f : Except Errno (List Link) × Unit → Program α}
    (h : (Link.openMany.go Link.fresh opened () n >>= f).Reaches es q) :
    ∃ ls fs, es = openings ls ++ fs ∧
      ((ls.length < n ∧ fs = [] ∧ ∃ again k, q = call .pipe again k) ∨
        (ls.length = n ∧ (f (.ok (opened ++ ls), ())).Reaches fs q) ∨
        (ls.length < n ∧ ∃ e gs, fs = ⟨.pipe, .error e⟩ :: gs ∧
          (Link.closeAll (opened ++ ls) >>= fun _ => f (.error e, ())).Reaches gs q)) := by
  induction n generalizing opened es with
  | zero => exact ⟨[], es, rfl, .inr (.inl ⟨rfl, by rwa [List.append_nil]⟩)⟩
  | succ n ih =>
    have hpos : ([] : List Link).length < n + 1 := Nat.zero_lt_succ n
    obtain ⟨rfl, rfl⟩ | ⟨x, gs, rfl, hx⟩ := reaches_call_iff.1 h
    · exact ⟨[], [], rfl, .inl ⟨hpos, rfl, _, _, rfl⟩⟩
    · rw [if_neg (by decide)] at hx
      obtain e | ⟨a, b⟩ := x
      · -- the links before it are closed
        have hx : ((Link.closeAll opened >>= fun _ => done (.error e, ())) >>= f).Reaches gs q := hx
        rw [bind_assoc] at hx
        exact ⟨[], _, rfl, .inr (.inr ⟨hpos, e, gs, rfl, by rwa [List.append_nil]⟩)⟩
      · have hx : (Link.openMany.go Link.fresh (opened ++ [⟨a, b⟩]) () n >>= f).Reaches gs q := hx
        obtain ⟨ls, fs, rfl, hcases⟩ := ih hx
        refine ⟨⟨a, b⟩ :: ls, fs, rfl, ?_⟩
        simpa using hcases

theorem calls_runStages_ne_pipe (s : State) (l : CommandLine) (ls : List Link) :
    (runStages s l ls).Calls (fun _ c => c ≠ .pipe) InShell false := by
  have hconduct : ∀ b c, Conduct b c → c ≠ .pipe := by
    rintro b c h rfl
    cases b <;> cases h
  rw [runStages, calls_bind]
  refine (calls_spawnStages hconduct fun _ _ => by simp).mono fun b x hb => ?_
  obtain rfl : b = false := hb
  exact calls_conclude (by simp) (by simp) (by simp) fun _ => rfl

theorem calls_withoutLink (ls : List Link) (e : Errno) :
    (Link.closeAll ls >>= fun _ => report "pipe" e >>= fun _ => done (1 : UInt8)).Calls
      (fun _ c => c ≠ .pipe ∧ c ≠ .fork) (fun _ _ => True) false := by
  rw [calls_bind]
  refine calls_closeAll (fun _ => ⟨nofun, nofun⟩) ?_
  rw [calls_bind]
  exact calls_report (fun _ => ⟨nofun, nofun⟩) trivial

theorem linksOpened_of_reaches {q : Program UInt8} (hl : l.commands ≠ [])
    (h : (runPipeline s l).Reaches es q) :
    linksOpened es + 1 = l.commands.length ∨
      linksOpened es + 1 < l.commands.length ∧ (∀ e ∈ es, e.call ≠ .fork) ∧
        ((∃ again k, q = call .pipe again k) ∨ ∃ e, ⟨.pipe, .error e⟩ ∈ es) := by
  have hpos : 0 < l.commands.length := List.length_pos_iff.2 hl
  have hopen : ∀ ls, ∀ e ∈ openings ls, e.call ≠ .fork := by
    rintro ls e he
    obtain ⟨k, -, rfl⟩ := List.mem_map.1 he
    nofun
  rw [runPipeline_eq, runPipelineWith_eq hl] at h
  obtain ⟨ls, fs, rfl, ⟨hn, rfl, hq⟩ | ⟨hn, hfs⟩ | ⟨hn, e, gs, rfl, hgs⟩⟩ :=
    reaches_openMany_cases h
  · -- the next link is about to be opened
    right
    rw [List.append_nil, linksOpened_openings]
    exact ⟨by omega, hopen ls, .inl hq⟩
  · -- all links are open
    left
    have hcalls := ((calls_runStages_ne_pipe s l ls).of_reaches hfs).1.imp fun _ _ h => h
    rw [linksOpened_append, linksOpened_openings, linksOpened_of_ne_pipe hcalls]
    omega
  · -- one of them could not be opened
    right
    have hcalls := ((calls_withoutLink ls e).of_reaches hgs).1.imp fun _ _ h => h
    have hcount : linksOpened gs = 0 := linksOpened_of_ne_pipe fun e he => (hcalls e he).1
    rw [linksOpened_append, linksOpened_openings, linksOpened_cons_error, hcount]
    refine ⟨by omega, ?_, .inr ⟨e, by simp⟩⟩
    simp only [List.forall_mem_append, List.forall_mem_cons]
    exact ⟨hopen ls, nofun, fun e he => (hcalls e he).2⟩

theorem bind_eq_done_iff {α β : Type} {p : Program α} {f : α → Program β} {b : β} :
    p >>= f = done b ↔ ∃ a, p = done a ∧ f a = done b := by
  cases p with
  | done a => simp
  | call c again k => simp

theorem forkAndWait_ne_done (child : Program Empty) (n : UInt8) : forkAndWait child ≠ done n := by
  rw [forkAndWait_eq]
  nofun

theorem changeDirectory_ne_done_zero (arguments : List Bytes) :
    Builtin.changeDirectory arguments ≠ done 0 := by
  intro h
  obtain ⟨x, hx, h⟩ := bind_eq_done_iff.1 h
  by_cases hn : Byte.nul ∈ arguments.headD (Bytes.ofAscii ".")
  · -- refused without a call, but not with success
    rw [chdir_of_mem hn] at hx
    cases hx
    cases h
  · rw [chdir_of_notMem hn] at hx
    cases hx

theorem runSingle_ne_done_zero (s : State) (c : Command) : runSingle s c ≠ done 0 := by
  unfold runSingle
  split
  · exact changeDirectory_ne_done_zero c.arguments
  · exact never_ne_done
  · intro h
    obtain ⟨x, -, h⟩ := bind_eq_done_iff.1 h
    split at h
    · exact forkAndWait_ne_done _ _ h
    · cases h

theorem runPipeline_ne_done (hl : l.commands ≠ []) (n : UInt8) : runPipeline s l ≠ done n := by
  intro h
  have hreturns : (runPipeline s l).Returns [] n := h ▸ .refl _
  have hnone : Supplied [] := ⟨nofun, nofun⟩
  obtain ⟨ls, as, fs, -, has, hes, -⟩ := (returns_runPipeline_iff hl hnone).1 hreturns
  obtain rfl : as = [] := by
    cases as with
    | nil => rfl
    | cons a as => simp [forks] at hes
  exact hl (List.length_eq_zero_iff.1 has.symm)

theorem runLine_eq_done_zero_iff : runLine s l = done 0 ↔ l.commands = [] := by
  by_cases hl : l.commands = []
  · simp [runLine, runPipeline, runPipelineWith, hl]
  · obtain ⟨c, cs, hcs⟩ := List.exists_cons_of_ne_nil hl
    refine iff_of_false ?_ hl
    unfold runLine
    split
    · exact runPipeline_ne_done hl 0
    · rw [hcs]
      cases l.redirect with
      | none => exact runSingle_ne_done_zero s c
      | some r => exact forkAndWait_ne_done _ 0

/-- The evaluation of a line succeeds without a single call just if there is no command in it. -/
theorem evalLine_eq_done_zero_iff : evalLine s l = done 0 ↔ l.commands = [] := by
  unfold evalLine
  split
  · rename_i c hc
    have hl : l.commands ≠ [] := by simp [(CommandLine.of_soleCommand hc).2]
    split
    · exact iff_of_false never_ne_done hl
    · exact iff_of_false (changeDirectory_ne_done_zero c.arguments) hl
    · exact runLine_eq_done_zero_iff
  · exact runLine_eq_done_zero_iff

/-- Of a line that a parser makes the views agree. If it has `n` commands it has `n - 1` pipes, and
a pipeline opens as many links as that and no more: it has opened them all before it forks, and
unless one cannot be opened it does open them all. The line is said to have pipes just if `n` is at
least 2, and to have a sole command just if `n` is 1, so one and only one of both is said. So there
is always something to run: no evaluation of the line is that of a line without a command, which
succeeds without a call (`evalLine_eq_done_zero_iff`). Its nodes alternate, and every line whose
nodes alternate is given out for some input. -/
theorem parsed_views_agree :
    (∀ (rs : List Parser.Request) (l : CommandLine), .ok l ∈ (Parser.empty.serve rs).1 →
      l.nodes.count .pipe + 1 = l.commands.length ∧
      (∀ s es q, (runPipeline s l).Reaches es q → linksOpened es = l.nodes.count .pipe ∨
        linksOpened es < l.nodes.count .pipe ∧ (∀ e ∈ es, e.call ≠ .fork) ∧
          ((∃ again k, q = call .pipe again k) ∨ ∃ e, ⟨.pipe, .error e⟩ ∈ es)) ∧
      (l.hasPipes = true ↔ 2 ≤ l.commands.length) ∧
      (∀ c, l.soleCommand = some c ↔ l.commands = [c]) ∧
      (l.hasPipes = !l.soleCommand.isSome) ∧
      l.commands ≠ [] ∧ (∀ s, evalLine s l ≠ done 0) ∧
      Alternates l.nodes) ∧
    ∀ l : CommandLine, Alternates l.nodes →
      ∃ text, (Parser.empty.serve [.feed text, .pop]).1 = [.ok l] := by
  refine ⟨fun rs l hl => ?_, fun l h => Parser.exists_serve_eq h⟩
  have halternates := CommandLine.alternates_iff.2 (Parser.pipeline_of_serve hl)
  obtain ⟨cs, r, hcs, rfl⟩ := Parser.pipeline_of_serve hl
  obtain ⟨c, cs, rfl⟩ := List.exists_cons_of_ne_nil hcs
  have hne : (CommandLine.pipeline (c :: cs) r).commands ≠ [] := by simp
  rw [CommandLine.count_pipe_pipeline]
  refine ⟨by simp, fun s es q h => ?_, ?_, fun d => ?_, ?_, hne, fun s => ?_, halternates⟩
  · simpa using linksOpened_of_reaches hne h
  · rw [CommandLine.hasPipes_pipeline, CommandLine.commands_pipeline]
  · rw [CommandLine.soleCommand_pipeline, CommandLine.commands_pipeline]
  · exact CommandLine.hasPipes_eq_not_isSome_soleCommand r c cs
  · exact mt evalLine_eq_done_zero_iff.1 hne

/-- Of two lines, one read in two goes, the first opens two links before its first stage is forked,
and the second has a sole command. -/
theorem parsed_views_agree_of_two_lines :
    let s := State.ofSearchPath none
    let a : Command := ⟨Bytes.ofAscii "a", []⟩
    let b : Command := ⟨Bytes.ofAscii "b", [Bytes.ofAscii "x"]⟩
    let r : Redirect := ⟨Bytes.ofAscii "f", .append⟩
    let first := CommandLine.pipeline [a, b, a] (some r)
    let second := CommandLine.pipeline [b] none
    let requests : List Parser.Request :=
      [.feed (Bytes.ofAscii "a|b"), .pop, .feed (Bytes.ofAscii " x|a>>f\nb x"), .pop, .finish, .pop]
    let es := openings [⟨3, 4⟩, ⟨5, 6⟩] ++ (forks [] ++ [birth])
    .ok first ∈ (Parser.empty.serve requests).1 ∧ .ok second ∈ (Parser.empty.serve requests).1 ∧
      (runPipeline s first).Reaches es (never (stage s first [⟨3, 4⟩, ⟨5, 6⟩] 0 a)) ∧
      linksOpened es = first.nodes.count .pipe ∧ first.hasPipes = true ∧
      first.soleCommand = none ∧ second.hasPipes = false ∧ second.soleCommand = some b ∧
      evalLine s second ≠ done 0 ∧ Alternates [.command b, .pipe, .command a] ∧
      ∃ text, (Parser.empty.serve [.feed text, .pop]).1 =
        [.ok ⟨[.command b, .pipe, .command a], some r⟩] := by
  intro s a b r first second requests es
  have hnone : Parser.pop ⟨Bytes.ofAscii "a|b", false⟩ =
      (none, ⟨Bytes.ofAscii "a|b", false⟩) := by
    have hline : Lexer.line false (Bytes.ofAscii "a|b") = none := by
      rw [Lexer.line_eq_scan]
      rfl
    exact Parser.pop_of_no_line hline
  have hfirst : Parser.pop ⟨Bytes.ofAscii "a|b x|a>>f\nb x", false⟩ =
      (some (.ok first), ⟨Bytes.ofAscii "b x", false⟩) := by
    have hline : Lexer.line false (Bytes.ofAscii "a|b x|a>>f\nb x") =
        some (CommandLine.pipelineTokens [a, b, a] (some r), Bytes.ofAscii "b x") := by
      rw [Lexer.line_eq_scan]
      rfl
    exact (Parser.pop_of_line hline).trans rfl
  have hsecond : Parser.pop ⟨Bytes.ofAscii "b x", true⟩ = (some (.ok second), ⟨[], true⟩) := by
    have hline : Lexer.line true (Bytes.ofAscii "b x") =
        some (CommandLine.pipelineTokens [b] none, []) := by
      rw [Lexer.line_eq_scan]
      rfl
    exact (Parser.pop_of_line hline).trans rfl
  have hserve : (Parser.empty.serve requests).1 = [.ok first, .ok second] := by
    have hfed : Bytes.ofAscii "a|b" ++ Bytes.ofAscii " x|a>>f\nb x" =
        Bytes.ofAscii "a|b x|a>>f\nb x" := rfl
    simp only [requests, Parser.serve, Parser.empty, Parser.feed, Parser.finish, List.nil_append,
      hnone, hfed, hfirst, hsecond]
    rfl
  have h₁ : .ok first ∈ (Parser.empty.serve requests).1 := by simp [hserve]
  have h₂ : .ok second ∈ (Parser.empty.serve requests).1 := by simp [hserve]
  obtain ⟨hviews, hinput⟩ := parsed_views_agree
  obtain ⟨-, hlinks, hpipes₁, -, hone₁, -⟩ := hviews requests first h₁
  obtain ⟨-, -, -, hsole₂, hone₂, -, hdone, -⟩ := hviews requests second h₂
  have hp : first.hasPipes = true := hpipes₁.2 (by decide)
  have hstage : (runPipeline s first).Reaches es (never (stage s first [⟨3, 4⟩, ⟨5, 6⟩] 0 a)) := by
    rw [← evalLine_of_hasPipes hp]
    exact ((inStages_of_hasPipes hp (by decide)).child _ [] a rfl rfl).1
  have hopened := (hlinks s es _ hstage).resolve_right fun h => h.2.1 birth (by simp [es]) rfl
  have halternates : Alternates [.command b, .pipe, .command a] :=
    CommandLine.alternates_pipeline none b [a]
  have hb : second.soleCommand = some b := (hsole₂ b).2 rfl
  exact ⟨h₁, h₂, hstage, hopened, hp, by simpa [hp] using hone₁, by rw [hone₂, hb]; rfl, hb,
    hdone s, halternates, hinput ⟨_, some r⟩ halternates⟩

end PipeShell
