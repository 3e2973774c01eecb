import PipeShell.Proofs.CommandLine.Views
import PipeShell.Proofs.Shell.Opening
import PipeShell.Proofs.Shell.Outcome
import PipeShell.Proofs.Token.Transducer

/-! Who runs the commands of a line. A line of two commands or more is run by as many children, one
for each command; a lone command by the shell or by one child. Main statement: on the lines that a
parser makes every command is run once, and on the way meant for it (`parsed_line_dispatch`). -/
namespace PipeShell

open Program

variable {s : State} {l : CommandLine} {es fs : List Event} {status : UInt8}

/-- Whether no pipe and no fork has failed in the course of some events. -/
def Supplied (es : List Event) : Prop :=
  (∀ e, (⟨.pipe, .error e⟩ : Event) ∉ es) ∧ ∀ e, (⟨.fork, .error e⟩ : Event) ∉ es

theorem supplied_append : Supplied (es ++ fs) ↔ Supplied es ∧ Supplied fs := by
  simp only [Supplied, List.mem_append, not_or, forall_and]
  exact and_and_and_comm

def Program.Forkless {α : Type} (p : Program α) : Prop :=
  ∀ es q, p.Reaches es q → ∀ e ∈ es, e.call ≠ .fork

theorem forkless_of_calls {α : Type} {p : Program α} {b : Bool} {Q : Bool → α → Prop}
    (h : p.Calls (fun _ c => c ≠ .fork) Q b) : p.Forkless :=
  fun _ _ hr => (h.of_reaches hr).1.imp fun _ _ h => h

def Syscall.carriesOut : Syscall → Bool
  | .exec _ _ | .chdir _ | .exit _ => true
  | _ => false

/-- Whether a process that evaluates `p` leaves all commands to its children. -/
def Program.Delegates (p : Program UInt8) : Prop :=
  ∀ es c again k, Own es → p.Reaches es (call c again k) → c.carriesOut = false

theorem delegates_evalLine (hm : ∀ c, ¬l.MovesShell c) (he : ∀ c, ¬l.EndsShell c) :
    (evalLine s l).Delegates := by
  intro es c again k ho hr
  have hcalls : (evalLine s l).Calls l.Makes InShell false := calls_evalLine fun _ _ h => h
  have hc := (hcalls.of_reaches hr).2.1
  rw [inChild_eq_false_iff.2 ho] at hc
  cases hc with
  | conduct h => cases c <;> first | rfl | cases h
  | plumbing _ h => cases c <;> first | rfl | cases h
  | moves h => exact absurd h (hm _)
  | ends h => exact absurd h (he _)

/-- Whether `p` runs `child` in one child process and waits for it: the shell forks once and then
waits, and has the status from the wait. -/
structure InOneChild (p : Program UInt8) (child : Program Empty) : Prop where
  shell : ∀ es status, Supplied es → (p.Returns es status ↔ ∃ (a : Attempt) (ws : List Event),
    es = ⟨.fork, .ok (.parent a.child)⟩ :: (a.events ++ ws) ∧
      Enacts ((firstError [a]).toList.map (complaint "wait")) ws ∧ status = a.code)
  child : p.Reaches [birth] (never (defaultBrokenPipe >>= fun _ => child))

theorem forkAndWait_eq (child : Program Empty) : forkAndWait child = fork >>= fun x => match x with
    | .error e => report "fork" e >>= fun _ => done 1
    | .ok .child => never (defaultBrokenPipe >>= fun _ => child)
    | .ok (.parent pid) => awaitJob ((JobBuilder.ofSize 1).push pid).build Job.code := by
  unfold forkAndWait JobBuilder.pushFork
  rw [bind_assoc]
  refine congrArg _ (funext fun x => ?_)
  match x with
  | .error e => rfl
  | .ok .child => rfl
  | .ok (.parent pid) =>
    refine congrArg (Job.wait ((JobBuilder.ofSize 1).push pid).build >>= ·) (funext fun x => ?_)
    obtain ⟨j, _ | e⟩ := x <;> rfl

theorem inOneChild_forkAndWait (child : Program Empty) : InOneChild (forkAndWait child) child where
  shell es status hes := by
    have hlearn : ∀ a : Attempt,
        (((JobBuilder.ofSize 1).push a.child).build.learn [a]).code = a.code := by
      intro a
      have hchild : [a].map Attempt.child = [a.child] := rfl
      exact JobBuilder.code_learn hchild
    rw [forkAndWait_eq, returns_bind_iff]
    constructor
    · rintro ⟨x, es₁, es₂, rfl, h₁, h₂⟩
      obtain rfl := returns_fork_iff.1 h₁
      match x with
      | .error e => exact absurd List.mem_cons_self (hes.2 e)
      | .ok .child => exact absurd h₂ not_returns_never
      | .ok (.parent pid) =>
        obtain ⟨as, ws, has, rfl, hws, rfl⟩ := returns_awaitJob_iff.1 h₂
        obtain ⟨a, rfl, rfl⟩ := List.map_eq_singleton_iff.1 has
        exact ⟨a, ws, by simp, hws, hlearn a⟩
    · rintro ⟨a, ws, rfl, hws, rfl⟩
      exact ⟨_, [_], _, rfl, returns_fork_iff.2 rfl, returns_awaitJob_iff.2
        ⟨[a], ws, rfl, by simp, hws, (hlearn a).symm⟩⟩
  child := by
    rw [forkAndWait_eq]
    exact .next rfl (.refl _)

/-- The calls by which it is found out whether a command can be launched, or by which it is carried
out. -/
def Syscall.decides : Syscall → Bool
  | .access _ | .environmentPath => true
  | c => c.carriesOut

theorem calls_openAt {P : Bool → Syscall → Prop} {b : Bool} (hP : ∀ c, SetsUp c → P b c)
    {path : Bytes} {mode : OpenMode} {target : Fd} {Q : Bool → Except SetupError Unit → Prop}
    (hQ : ∀ x, Q b x) : (openAt path mode target).Calls P Q b := by
  unfold openAt
  rw [calls_bind]
  refine calls_openPath hP fun x => ?_
  split
  · exact hQ _
  · exact calls_rebind hP hQ

theorem not_decides_of_openAt {path : Bytes} {mode : OpenMode} {target : Fd}
    {q : Program (Except SetupError Unit)} (h : (openAt path mode target).Reaches es q) :
    ∀ e ∈ es, e.call.decides = false := by
  have hcalls : (openAt path mode target).Calls (fun _ c => c.decides = false) (fun _ _ => True)
      false := calls_openAt (fun c h => by cases c <;> first | rfl | cases h) fun _ => trivial
  exact (hcalls.of_reaches h).1.imp fun _ _ h => h

def afterTarget (s : State) (c : Command) : Except SetupError Unit → Program Empty
  | .error _ => exit 1
  | .ok () => (if c.builtin? = none then Search.resolvable s.searchPath c.name else done true) >>=
      fun launchable => if launchable then c.runInChild s true else exit 1

theorem redirectedChild_eq (s : State) (c : Command) (r : Redirect) : redirectedChild s c r =
    openAt s.nullSink .write Fd.stderr >>= fun _ =>
      openAt r.target (.create r.mode) Fd.stdout >>= afterTarget s c := by
  refine congrArg _ (funext fun _ => congrArg _ (funext fun x => ?_))
  obtain _ | ⟨⟨⟩⟩ := x
  · rfl
  · unfold afterTarget
    dsimp only
    split <;> rfl

/-- Whether in all that `child` does the target of `r` has been opened before it is decided whether
the command can be launched. -/
def OpensFirst (child : Program Empty) (r : Redirect) : Prop :=
  ∀ es q, child.Reaches es q → ∀ before e after, es = before ++ e :: after →
    e.call.decides = true → ∃ fd, (⟨.openFile r.target (.create r.mode), .ok fd⟩ : Event) ∈ before

theorem subset_of_append_eq {before after : List Event} {e : Event}
    (h : es ++ fs = before ++ e :: after) (he : e ∉ es) : es ⊆ before := by
  obtain ⟨gs, rfl, -⟩ | ⟨gs, rfl, hgs⟩ := List.append_eq_append_iff.1 h
  · exact List.subset_append_left _ _
  · cases gs with
    | nil => simp
    | cons g gs =>
      obtain rfl := (List.cons.inj hgs).1
      exact absurd (List.mem_append_right _ List.mem_cons_self) he

theorem opensFirst_redirectedChild (s : State) (c : Command) (r : Redirect) :
    OpensFirst (redirectedChild s c r) r := by
  intro es q h before e after hes he
  rw [redirectedChild_eq] at h
  have hne : ∀ {es : List Event}, (∀ e ∈ es, e.call.decides = false) → e ∉ es := by
    intro es hes hm
    rw [hes e hm] at he
    cases he
  have hmem : e ∈ es := by simp [hes]
  obtain ⟨q', h₁, -⟩ | ⟨x, es₁, es₂, rfl, h₁, h₂⟩ := reaches_bind_iff.1 h
  · exact absurd hmem (hne (not_decides_of_openAt h₁))
  · have hsilence := hne (not_decides_of_openAt h₁)
    obtain ⟨q', h₃, -⟩ | ⟨x, es₃, es₄, rfl, h₃, h₄⟩ := reaches_bind_iff.1 h₂
    · exact absurd hmem fun hm =>
        (List.mem_append.1 hm).elim hsilence (hne (not_decides_of_openAt h₃))
    · have htarget := hne (not_decides_of_openAt h₃)
      rw [← List.append_assoc] at hes
      have hsub := subset_of_append_eq hes fun hm => (List.mem_append.1 hm).elim hsilence htarget
      obtain x | ⟨⟨⟩⟩ := x
      · -- nothing is done but to exit
        obtain ⟨rfl, -⟩ | ⟨r, -⟩ := reaches_ask_iff.1 h₄
        · rw [List.append_nil] at hmem
          exact absurd hmem fun hm => (List.mem_append.1 hm).elim hsilence htarget
        · exact r.elim
      · obtain ⟨n, fd, rfl⟩ := returns_openAt_ok h₃
        exact ⟨fd, hsub (by simp)⟩

theorem reaches_redirectedChild {c : Command} {r : Redirect} {es₁ es₂ gs : List Event}
    {x : Except SetupError Unit} (h₁ : (openAt s.nullSink .write Fd.stderr).Returns es₁ x)
    (h₂ : (openAt r.target (.create r.mode) Fd.stdout).Returns es₂ (.ok ()))
    (h₃ : c.builtin? ≠ none ∧ gs = [] ∨
      c.builtin? = none ∧ (Search.resolvable s.searchPath c.name).Returns gs true) :
    (redirectedChild s c r).Reaches (es₁ ++ es₂ ++ gs) (c.runInChild s true) := by
  rw [redirectedChild_eq, List.append_assoc]
  refine (h₁.bind _).trans ((h₂.bind (afterTarget s c)).trans ?_)
  rw [done_bind, afterTarget]
  obtain ⟨hb, rfl⟩ | ⟨hb, hgs⟩ := h₃
  · rw [if_neg hb]
    exact .refl _
  · rw [if_pos hb]
    exact hgs.bind _

section Stages

variable {opened ls : List Link} {r : Option Redirect}

theorem openings_of_returns {n : Nat} {x : Except Errno (List Link) × Unit} (hes : Supplied es)
    (h : (Link.openMany.go Link.fresh opened () n).Returns es x) :
    ∃ ls, ls.length = n ∧ es = openings ls ∧ x = (.ok (opened ++ ls), ()) := by
  induction n generalizing opened es with
  | zero =>
    obtain ⟨rfl, rfl⟩ := returns_done_iff.1 h
    exact ⟨[], rfl, rfl, by rw [List.append_nil]⟩
  | succ n ih =>
    rw [Link.openMany.go, returns_bind_iff] at h
    obtain ⟨y, es₁, es₂, rfl, hy, h⟩ := h
    obtain ⟨hes₁, hes₂⟩ := supplied_append.1 hes
    obtain ⟨e, rfl, rfl⟩ | ⟨a, b, rfl, rfl⟩ := returns_source_iff.1 hy
    · exact absurd List.mem_cons_self (hes₁.1 e)
    · obtain ⟨ls, rfl, rfl, rfl⟩ := ih hes₂ h
      exact ⟨⟨a, b⟩ :: ls, rfl, rfl, by simp⟩

theorem forks_of_returns {x : Except Errno Job} (hes : Supplied es)
    (h : (spawnStages s l.commands ls r).Returns es x) :
    ∃ pids : List Pid, pids.length = l.commands.length ∧ es = forks pids := by
  obtain ⟨pids, fs, rfl, hcases⟩ := reaches_spawnStages_cases s ls r h
  obtain ⟨-, -, again, k, hq⟩ | ⟨hlen, rfl, -⟩ | ⟨-, e, gs, rfl, -⟩ | ⟨-, gs, z, -, hq⟩ := hcases
  · cases hq
  · exact ⟨pids, hlen, List.append_nil _⟩
  · exact absurd List.mem_cons_self ((supplied_append.1 hes).2.2 e)
  · exact absurd hq.symm never_ne_done

theorem reaches_runInChild {c : Command} {pids : List Pid} {ws cs : List Event}
    (hn : ls.length + 1 = l.commands.length) (hc : l.commands[pids.length]? = some c)
    (hws : (wireStage (Link.before ls pids.length) ls[pids.length]? l.redirect).Returns ws (.ok ()))
    (hcs : (Link.closeAll ls).Returns cs ()) :
    (runPipeline s l).Reaches (openings ls ++ wired pids ws cs)
      (never (c.runInChild s (pids.length + 1 == l.commands.length))) := by
  obtain ⟨hlt, rfl⟩ := List.getElem?_eq_some_iff.1 hc
  have hstage : (runStages s l ls).Reaches (wired pids ws cs)
      (never (l.commands[pids.length].runInChild s (pids.length + 1 == l.commands.length))) := by
    rw [← bind_done (runStages s l ls)]
    exact reaches_wired hlt hws hcs
  rw [runPipeline_eq]
  exact (reaches_runStages (opens_openings ls) hn).trans hstage

theorem returns_runPipeline_iff {n : UInt8} (hl : l.commands ≠ []) (hes : Supplied es) :
    (runPipeline s l).Returns es n ↔ ∃ (ls : List Link) (as : List Attempt) (fs : List Event),
      ls.length + 1 = l.commands.length ∧ as.length = l.commands.length ∧
      es = openings ls ++ forks (as.map Attempt.child) ++ fs ∧ Concluding ls as fs ∧
      n = pipelineStatus l.commands (as.getLast?.elim 1 Attempt.code) := by
  have hpos : 0 < l.commands.length := List.length_pos_iff.2 hl
  constructor
  · intro h
    have h' := h
    rw [runPipeline_eq, runPipelineWith_eq hl, returns_bind_iff] at h'
    obtain ⟨x, es₁, es₂, rfl, hopen, h'⟩ := h'
    obtain ⟨hes₁, hes₂⟩ := supplied_append.1 hes
    obtain ⟨ls, hlen, rfl, rfl⟩ := openings_of_returns hes₁ hopen
    have h' : (runStages s l ([] ++ ls)).Returns es₂ n := h'
    rw [runStages, returns_bind_iff] at h'
    obtain ⟨y, es₃, fs, rfl, hfork, -⟩ := h'
    obtain ⟨pids, hpids, rfl⟩ := forks_of_returns (supplied_append.1 hes₂).1 hfork
    have hn : ls.length + 1 = l.commands.length := by omega
    rw [← List.append_assoc] at h ⊢
    obtain ⟨as, rfl, hfs, rfl⟩ := (returns_pipeline_iff (opens_openings ls) hn hpids).1 h
    exact ⟨ls, as, fs, hn, by simpa using hpids, rfl, hfs, rfl⟩
  · rintro ⟨ls, as, fs, hn, has, rfl, hfs, rfl⟩
    exact (returns_pipeline_iff (opens_openings ls) hn (by simpa using has)).2
      ⟨as, rfl, hfs, rfl⟩

/-- Whether `p` runs the commands of the line `l` in one child each and carries out none of them
otherwise: the shell opens the links, forks the children one after the other and waits for them, and
the child that comes from fork number `i` is the stage of command `i`, and runs it when it has been
wired. -/
structure InStages (s : State) (l : CommandLine) (p : Program UInt8) : Prop where
  shell : ∀ es status, Supplied es → (p.Returns es status ↔
    ∃ (ls : List Link) (as : List Attempt) (fs : List Event),
      ls.length + 1 = l.commands.length ∧ as.length = l.commands.length ∧
      es = openings ls ++ forks (as.map Attempt.child) ++ fs ∧ Concluding ls as fs ∧
      status = pipelineStatus l.commands (as.getLast?.elim 1 Attempt.code))
  delegates : p.Delegates
  child : ∀ (ls : List Link) (pids : List Pid) (c : Command),
    ls.length + 1 = l.commands.length → l.commands[pids.length]? = some c →
      p.Reaches (openings ls ++ (forks pids ++ [birth])) (never (stage s l ls pids.length c)) ∧
      ∀ ws cs, (wireStage (Link.before ls pids.length) ls[pids.length]? l.redirect).Returns ws
          (.ok ()) → (Link.closeAll ls).Returns cs () →
        p.Reaches (openings ls ++ wired pids ws cs)
          (never (c.runInChild s (pids.length + 1 == l.commands.length)))

theorem inStages_of_hasPipes (h : l.hasPipes = true) (hl : l.commands ≠ []) :
    InStages s l (evalLine s l) where
  shell es status hes := by
    rw [evalLine_of_hasPipes h]
    exact returns_runPipeline_iff hl hes
  delegates := by
    refine delegates_evalLine (fun c hc => ?_) fun c hc => ?_
    · rw [hc.2.1] at h
      cases h
    · obtain ⟨-, hc | ⟨hp, -⟩⟩ := hc
      · rw [(CommandLine.of_soleCommand hc).1] at h
        cases h
      · rw [hp] at h
        cases h
  child ls pids c hn hc := by
    rw [evalLine_of_hasPipes h]
    refine ⟨?_, fun ws cs hws hcs => reaches_runInChild hn hc hws hcs⟩
    obtain ⟨hlt, rfl⟩ := List.getElem?_eq_some_iff.1 hc
    rw [runPipeline_eq, ← bind_done (runPipelineWith _ _ s l)]
    exact ((reaches_runStages (opens_openings ls) hn).bind done).trans (reaches_stage hlt)

end Stages

section Alone

variable {c : Command} {r : Redirect}

def Program.ExitsAtOnce (p : Program UInt8) (code : Int32) : Prop :=
  p.Exits [] code ∧ ∀ es q, p.Reaches es q → es = []

theorem exitsAtOnce_of_endsShell (h : l.EndsShell c) :
    (evalLine s l).ExitsAtOnce (ExitCode.ofArguments c.arguments) := by
  rw [evalLine_of_endsShell h]
  refine ⟨exits_never_iff.2 (exits_exit_iff.2 ⟨rfl, rfl⟩), fun es q hr => ?_⟩
  obtain ⟨p, hp, -⟩ := reaches_never_iff.1 hr
  obtain ⟨rfl, -⟩ | ⟨x, -⟩ := reaches_ask_iff.1 hp
  · rfl
  · exact x.elim

/-- Whether `p` runs a command that is alone on its line: `cd` and `exit` in the shell, and any
other in one child, but only if it can be launched. -/
structure RunsAlone (s : State) (c : Command) (p : Program UInt8) : Prop where
  cd : c.name = Bytes.ofAscii "cd" → p = Builtin.changeDirectory c.arguments ∧ p.Forkless ∧
    ∀ es n, p.Returns es n ↔ ChangesDirectory c.arguments es n
  exit : c.name = Bytes.ofAscii "exit" → p.ExitsAtOnce (ExitCode.ofArguments c.arguments)
  search : (Search.resolvable s.searchPath c.name).Forkless
  missing : c.builtin? = none → ∀ es, (Search.resolvable s.searchPath c.name).Returns es false →
    p.Returns es 1
  found : c.builtin? = none → ∀ es, (Search.resolvable s.searchPath c.name).Returns es true →
    ∃ q, p.Reaches es q ∧ InOneChild q (c.runInChild s true)
  delegates : c.builtin? = none → p.Delegates

theorem runsAlone (s : State) (c : Command) :
    RunsAlone s c (evalLine s (CommandLine.pipeline [c] none)) := by
  have hline : c.builtin? = none → evalLine s (CommandLine.pipeline [c] none) =
      Search.resolvable s.searchPath c.name >>= fun x =>
        if x = true then forkAndWait (c.runInChild s true) else done 1 := by
    intro hb
    simp [evalLine, CommandLine.pipeline, CommandLine.soleCommand, runLine, CommandLine.hasPipes,
      CommandLine.hasPipes.go, CommandLine.commands, Node.command?, runSingle, hb]
  refine ⟨fun hn => ?_, fun hn => ?_, ?_, fun hb es hes => ?_, fun hb es hes => ?_, fun hb => ?_⟩
  · have hmoves : (CommandLine.pipeline [c] none).MovesShell c :=
      ⟨Command.builtin?_eq_cd_iff.2 hn, rfl, rfl, rfl⟩
    rw [evalLine_of_movesShell hmoves]
    exact ⟨rfl, forkless_of_calls (b := false) (Q := fun _ _ => True)
      (calls_changeDirectory (fun he => by cases he) fun _ => trivial),
      fun _ _ => returns_changeDirectory_iff⟩
  · exact exitsAtOnce_of_endsShell ⟨Command.builtin?_eq_exit_iff.2 hn, .inl rfl⟩
  · exact forkless_of_calls (b := false) (Q := fun _ _ => True)
      (calls_resolvable (fun _ he => by cases he) fun _ => trivial)
  · rw [hline hb]
    exact hes.bind _
  · rw [hline hb]
    exact ⟨_, hes.bind _, inOneChild_forkAndWait _⟩
  · refine delegates_evalLine (fun d hd => ?_) fun d hd => ?_
    · obtain ⟨hb', -, -, hd⟩ := hd
      obtain rfl : c = d := Option.some.inj hd
      rw [hb] at hb'
      cases hb'
    · obtain ⟨hb', hd | ⟨-, -, hd⟩⟩ := hd
      all_goals
        obtain rfl : c = d := Option.some.inj hd
        rw [hb] at hb'
        cases hb'

/-- Whether `p` runs a redirected command: `exit` in the shell, before the target is opened, and any
other in one child, which opens the target first. -/
structure RunsRedirected (s : State) (c : Command) (r : Redirect) (p : Program UInt8) : Prop where
  exit : c.name = Bytes.ofAscii "exit" → p.ExitsAtOnce (ExitCode.ofArguments c.arguments)
  child : c.name ≠ Bytes.ofAscii "exit" → InOneChild p (redirectedChild s c r)
  delegates : c.name ≠ Bytes.ofAscii "exit" → p.Delegates
  opens : OpensFirst (redirectedChild s c r) r
  runs : ∀ es₁ x es₂ gs, (openAt s.nullSink .write Fd.stderr).Returns es₁ x →
    (openAt r.target (.create r.mode) Fd.stdout).Returns es₂ (.ok ()) →
    (c.builtin? ≠ none ∧ gs = [] ∨
      c.builtin? = none ∧ (Search.resolvable s.searchPath c.name).Returns gs true) →
    (redirectedChild s c r).Reaches (es₁ ++ es₂ ++ gs) (c.runInChild s true)

theorem runsRedirected (s : State) (c : Command) (r : Redirect) :
    RunsRedirected s c r (evalLine s (CommandLine.pipeline [c] (some r))) := by
  refine ⟨fun hn => ?_, fun hn => ?_, fun hn => ?_, opensFirst_redirectedChild s c r,
    fun _ _ _ _ => reaches_redirectedChild⟩
  · exact exitsAtOnce_of_endsShell ⟨Command.builtin?_eq_exit_iff.2 hn, .inl rfl⟩
  · have hb : c.builtin? ≠ some .exit := mt Command.builtin?_eq_exit_iff.1 hn
    have hline : evalLine s (CommandLine.pipeline [c] (some r)) =
        forkAndWait (redirectedChild s c r) := by
      unfold evalLine
      simp only [CommandLine.pipeline, CommandLine.soleCommand, List.map_cons, List.map_nil,
        List.intersperse_singleton]
      split
      · exact absurd ‹_› hb
      · exact absurd ‹some r = none› (Option.some_ne_none r)
      · simp [runLine, CommandLine.hasPipes, CommandLine.hasPipes.go, CommandLine.commands,
          Node.command?, runRedirected]
    rw [hline]
    exact inOneChild_forkAndWait _
  · refine delegates_evalLine (fun d hd => ?_) fun d hd => ?_
    · cases hd.2.2.1
    · obtain ⟨hb, hd | ⟨-, hr, -⟩⟩ := hd
      · obtain rfl : c = d := Option.some.inj hd
        exact hn (Command.builtin?_eq_exit_iff.1 hb)
      · cases hr

end Alone

/-- Every command of a line that a parser makes is run once, and on the way meant for it. The line
is its commands joined by pipes, and it has one at least. Two commands or more are run in one child
each. A command alone is run by the shell if it is built in, and otherwise in one child if it can be
launched; with a redirection, it is run in one child, which opens the target first, unless it is
`exit`. The child that runs it makes the one change of directory of a `cd`, exits with the number of
an `exit`, and becomes the program of any other or exits with 1. This holds as long as no pipe and
no fork fails, whatever else happens. -/
theorem parsed_line_dispatch {rs : List Parser.Request} {l : CommandLine}
    (hl : .ok l ∈ (Parser.empty.serve rs).1) (s : State) :
    l.commands ≠ [] ∧ l = CommandLine.pipeline l.commands l.redirect ∧
    (2 ≤ l.commands.length → InStages s l (evalLine s l)) ∧
    (∀ c, l.commands = [c] → l.redirect = none → RunsAlone s c (evalLine s l)) ∧
    (∀ c r, l.commands = [c] → l.redirect = some r → RunsRedirected s c r (evalLine s l)) ∧
    (∀ c ∈ l.commands, ∀ isTerminal, CarriesOut s c isTerminal (c.runInChild s isTerminal)) ∧
    ∀ es status s', (eval s l).Returns es (status, s') ↔
      (evalLine s l).Returns es status ∧ s' = { s with lastStatus := status } := by
  obtain ⟨cs, r, hcs, rfl⟩ := Parser.pipeline_of_serve hl
  rw [CommandLine.commands_pipeline, CommandLine.redirect_pipeline]
  refine ⟨hcs, rfl, fun hn => ?_, ?_, ?_, fun c _ => carriesOut_runInChild s c,
    fun _ _ _ => returns_eval_iff⟩
  · exact inStages_of_hasPipes ((CommandLine.hasPipes_pipeline r cs).2 hn)
      (by rwa [CommandLine.commands_pipeline])
  · rintro c rfl rfl
    exact runsAlone s c
  · rintro c r rfl rfl
    exact runsRedirected s c r

/-- Of two lines read in one go, the redirected `cd` is run in one child, and the `exit` of the
pipeline in the second of two, which exits with its number. -/
theorem dispatch_of_two_lines :
    let s := State.ofSearchPath none
    let cd : Command := ⟨Bytes.ofAscii "cd", []⟩
    let ls : Command := ⟨Bytes.ofAscii "ls", []⟩
    let exit3 : Command := ⟨Bytes.ofAscii "exit", [Bytes.ofAscii "3"]⟩
    let r : Redirect := ⟨Bytes.ofAscii "o", .truncate⟩
    let first := CommandLine.pipeline [cd] (some r)
    let second := CommandLine.pipeline [ls, exit3] (some r)
    let requests : List Parser.Request :=
      [.feed (Bytes.ofAscii "cd >o\nls|exit 3>o\n"), .pop, .pop]
    .ok first ∈ (Parser.empty.serve requests).1 ∧ .ok second ∈ (Parser.empty.serve requests).1 ∧
      InOneChild (evalLine s first) (redirectedChild s cd r) ∧ (evalLine s first).Delegates ∧
      OpensFirst (redirectedChild s cd r) r ∧ (evalLine s second).Delegates ∧
      (evalLine s second).Reaches (openings [⟨3, 4⟩] ++ (forks [7] ++ [birth]))
        (never (stage s second [⟨3, 4⟩] 1 exit3)) ∧ (exit3.runInChild s true).Exits [] 3 := by
  intro s cd ls exit3 r first second requests
  have hfirst : Parser.pop ⟨Bytes.ofAscii "cd >o\nls|exit 3>o\n", false⟩ =
      (some (.ok first), ⟨Bytes.ofAscii "ls|exit 3>o\n", false⟩) := by
    have hline : Lexer.line false (Bytes.ofAscii "cd >o\nls|exit 3>o\n") =
        some ([.word cd.name, .redirect .truncate, .word r.target],
          Bytes.ofAscii "ls|exit 3>o\n") := by
      rw [Lexer.line_eq_scan]
      rfl
    exact (Parser.pop_of_line hline).trans rfl
  have hsecond : Parser.pop ⟨Bytes.ofAscii "ls|exit 3>o\n", false⟩ =
      (some (.ok second), ⟨[], false⟩) := by
    have hline : Lexer.line false (Bytes.ofAscii "ls|exit 3>o\n") =
        some ([.word ls.name, .pipe, .word exit3.name, .word (Bytes.ofAscii "3"),
          .redirect .truncate, .word r.target], []) := by
      rw [Lexer.line_eq_scan]
      rfl
    exact (Parser.pop_of_line hline).trans rfl
  have hserve : (Parser.empty.serve requests).1 = [.ok first, .ok second] := by
    simp only [requests, Parser.serve, Parser.empty, Parser.feed, List.nil_append, hfirst, hsecond]
    rfl
  have h₁ : .ok first ∈ (Parser.empty.serve requests).1 := by simp [hserve]
  have h₂ : .ok second ∈ (Parser.empty.serve requests).1 := by simp [hserve]
  obtain ⟨-, -, -, -, hredirected, -⟩ := parsed_line_dispatch h₁ s
  obtain ⟨-, -, hstages, -, -, hcarries, -⟩ := parsed_line_dispatch h₂ s
  have hcd := hredirected cd r rfl rfl
  have hpipeline := hstages (Nat.le_refl 2)
  have hname : cd.name ≠ Bytes.ofAscii "exit" := by decide
  exact ⟨h₁, h₂, hcd.child hname, hcd.delegates hname, hcd.opens, hpipeline.delegates,
    (hpipeline.child [⟨3, 4⟩] [7] exit3 rfl rfl).1,
    ((hcarries exit3 (by simp [second]) true).exit rfl [] 3).2 ⟨rfl, by decide⟩⟩

end PipeShell
