import PipeShell.Proofs.Program.Calls
import PipeShell.Shell.Eval

/-! The calls that the evaluation of a line makes. The shell itself forks and waits, for a pipeline
it also opens and closes pipes, and it never reads, opens files or becomes another program; a child
sets up its descriptors and becomes a program, and never forks, waits or sends a signal. Main
statement: evaluation keeps to this, and what returns from it is the shell and not a child
(`calls_evalLine`). -/
namespace PipeShell

open Program

def wireOutput (after : Option Link) (r : Option Redirect) : Program (Except SetupError Unit) :=
  match after, r with
  | some l, _ => do
    match ← dup2 l.writeEnd Fd.stdout with
    | .error e => return .error (.system e)
    | .ok () => return .ok ()
  | none, some r => r.takeStdout
  | none, none => return .ok ()

theorem wireStage_none (after : Option Link) (r : Option Redirect) :
    wireStage none after r = wireOutput after r := rfl

theorem wireStage_some (l : Link) (after : Option Link) (r : Option Redirect) :
    wireStage (some l) after r = dup2 l.readEnd Fd.stdin >>= fun x => match x with
      | .error e => done (.error (.system e))
      | .ok () => wireOutput after r := rfl

def awaitStages (l : CommandLine) (job : Job) : Program UInt8 := do
  let (job, e) ← job.wait
  if let some e := e then report "wait" e
  return pipelineStatus l.commands job.code

def conclude (l : CommandLine) (links : List Link) : Except Errno Job → Program UInt8
  | .error e => do
    report "fork" e
    Link.closeAll links
    return 1
  | .ok job => do
    Link.closeAll links
    awaitStages l job

def runStages (s : State) (l : CommandLine) (links : List Link) : Program UInt8 :=
  spawnStages s l.commands links l.redirect >>= conclude l links

theorem runPipelineWith_eq {σ : Type} {source : σ → Program (Except Errno Link × σ)} {s : State}
    {l : CommandLine} (h : l.commands ≠ []) (st : σ) :
    runPipelineWith source st s l =
    Link.openMany source st (l.commands.length - 1) >>= fun x => match x.1 with
      | .error e => report "pipe" e >>= fun _ => done 1
      | .ok links => runStages s l links := by
  rw [runPipelineWith, if_neg h]
  refine congrArg _ (funext fun x => ?_)
  obtain ⟨_ | links, st'⟩ := x
  · rfl
  · refine congrArg (spawnStages s l.commands links l.redirect >>= ·) (funext fun y => ?_)
    cases y <;> rfl

/-- The calls of every evaluation, in the shell and in a child. -/
def Conduct : Bool → Syscall → Prop
  | false, .fork | false, .wait _ | false, .access _ => True
  | false, .write fd _ => fd = Fd.stderr
  | true, .exit _ | true, .exec _ _ | true, .defaultBrokenPipe | true, .dup2 _ _ | true, .close _
  | true, .openFile _ _ | true, .chdir _ | true, .access _ | true, .environmentPath => True
  | _, _ => False

def SetsUp : Syscall → Prop
  | .dup2 _ _ | .close _ | .openFile _ _ => True
  | _ => False

theorem SetsUp.conduct {c : Syscall} (h : SetsUp c) : Conduct true c := by
  cases c <;> trivial

theorem SetsUp.ne_exit {c : Syscall} (h : SetsUp c) (n : Int32) : c ≠ .exit n := by
  rintro rfl
  cases h

def Plumbing : Syscall → Prop
  | .pipe | .close _ | .kill _ _ => True
  | _ => False

namespace Command

variable {c : Command}

theorem exit_ne_cd : Bytes.ofAscii "exit" ≠ Bytes.ofAscii "cd" := by decide

theorem builtin?_eq_exit_iff : c.builtin? = some .exit ↔ c.name = Bytes.ofAscii "exit" := by
  unfold builtin? Builtin.ofName?
  split
  · rename_i h
    simp [h, exit_ne_cd.symm]
  · split <;> simp_all

theorem builtin?_eq_cd_iff : c.builtin? = some .cd ↔ c.name = Bytes.ofAscii "cd" := by
  unfold builtin? Builtin.ofName?
  split
  · simp [*]
  · split <;> simp [*, exit_ne_cd]

end Command

/-- Whether `c` is an `exit` that the shell itself carries out when it evaluates the line `l`: in a
pipeline it never is, and under a redirection only if the line has no other node. -/
def CommandLine.EndsShell (l : CommandLine) (c : Command) : Prop :=
  c.builtin? = some .exit ∧ (l.soleCommand = some c ∨
    l.hasPipes = false ∧ l.redirect = none ∧ l.commands.head? = some c)

/-- Whether `c` is a `cd` that the shell itself carries out when it evaluates the line `l`. -/
def CommandLine.MovesShell (l : CommandLine) (c : Command) : Prop :=
  c.builtin? = some .cd ∧ l.hasPipes = false ∧ l.redirect = none ∧ l.commands.head? = some c

inductive CommandLine.Makes (l : CommandLine) : Bool → Syscall → Prop
  | conduct {b : Bool} {c : Syscall} (h : Conduct b c) : Makes l b c
  | plumbing {c : Syscall} (hl : l.hasPipes = true) (h : Plumbing c) : Makes l false c
  | moves {c : Command} (h : l.MovesShell c) :
      Makes l false (.chdir (c.arguments.headD (Bytes.ofAscii ".")))
  | ends {c : Command} (h : l.EndsShell c) :
      Makes l false (.exit (ExitCode.ofArguments c.arguments))

def InShell {α : Type} (b : Bool) (_ : α) : Prop := b = false

theorem CommandLine.of_soleCommand {l : CommandLine} {c : Command} (h : l.soleCommand = some c) :
    l.hasPipes = false ∧ l.commands = [c] := by
  obtain ⟨nodes, redirect⟩ := l
  unfold CommandLine.soleCommand at h
  split at h
  · rename_i d hn
    obtain rfl := Option.some.inj h
    obtain rfl : nodes = [.command d] := hn
    exact ⟨rfl, rfl⟩
  · cases h

variable {P : Bool → Syscall → Prop} {b : Bool} {α : Type}

theorem calls_closeAll (hP : ∀ fd, P b (.close fd)) {ls : List Link} {Q : Bool → Unit → Prop}
    (hQ : Q b ()) : (Link.closeAll ls).Calls P Q b := by
  induction ls with
  | nil => exact hQ
  | cons l ls ih =>
    simp only [Link.closeAll, calls_bind, calls_close, hP, ih, implies_true, and_self]

theorem calls_report (hP : ∀ s, P b (.write Fd.stderr s)) {what : String} {e : Errno}
    {Q : Bool → Unit → Prop} (hQ : Q b ()) : (report what e).Calls P Q b := by
  unfold report
  rw [calls_bind]
  exact calls_writeAll hP (fun _ => hQ) _

theorem calls_changeDirectory {arguments : List Bytes} {Q : Bool → UInt8 → Prop}
    (hP : P b (.chdir (arguments.headD (Bytes.ofAscii ".")))) (hQ : ∀ n, Q b n) :
    (Builtin.changeDirectory arguments).Calls P Q b := by
  unfold Builtin.changeDirectory
  rw [calls_bind]
  refine calls_chdir hP fun r => ?_
  split <;> exact hQ _

section Waiting

theorem calls_waitFor {pid : Pid} (hP : P b (.wait pid)) {Q : Bool → Except Errno WaitStatus → Prop}
    (hQ : ∀ r, Q b r) : (waitFor pid).Calls P Q b := by
  unfold waitFor
  rw [calls_bind, calls_wait]
  refine ⟨hP, fun r _ => ?_⟩
  split
  · exact hQ _
  · split <;> exact hQ _

theorem calls_waitStages {ss : List Stage} (hP : ∀ s ∈ ss, P b (.wait s.pid))
    {Q : Bool → List Stage × Option Errno → Prop} (hQ : ∀ x, Q b x) :
    (Job.waitStages ss).Calls P Q b := by
  induction ss generalizing Q with
  | nil => exact hQ _
  | cons s ss ih =>
    have hrest := fun s hs => hP s (List.mem_cons_of_mem _ hs)
    rw [Job.waitStages, calls_bind]
    refine calls_waitFor (hP s List.mem_cons_self) fun r => ?_
    split
    · rw [calls_bind]; exact ih hrest fun x => hQ _
    · rw [calls_bind]; exact ih hrest fun x => hQ _

section Jobs

variable {job : Job} (hP : ∀ s ∈ job.stages, P b (.wait s.pid))
include hP

theorem calls_jobWait {Q : Bool → Job × Option Errno → Prop} (hQ : ∀ x, Q b x) :
    job.wait.Calls P Q b := by
  unfold Job.wait
  rw [calls_bind]
  exact calls_waitStages hP fun x => hQ _

theorem calls_awaitStages (hr : ∀ s, P b (.write Fd.stderr s)) {l : CommandLine}
    {Q : Bool → UInt8 → Prop} (hQ : ∀ n, Q b n) : (awaitStages l job).Calls P Q b := by
  unfold awaitStages
  rw [calls_bind]
  refine calls_jobWait hP fun (job, e) => ?_
  match e with
  | none => exact hQ _
  | some e => rw [calls_bind]; exact calls_report hr (hQ _)

end Jobs

theorem calls_conclude (hP : ∀ pid, P b (.wait pid)) (hr : ∀ s, P b (.write Fd.stderr s))
    (hc : ∀ fd, P b (.close fd)) {l : CommandLine} {links : List Link} {x : Except Errno Job}
    {Q : Bool → UInt8 → Prop} (hQ : ∀ n, Q b n) : (conclude l links x).Calls P Q b := by
  cases x with
  | error e =>
    rw [conclude, calls_bind]
    refine calls_report hr ?_
    rw [calls_bind]
    exact calls_closeAll hc (hQ _)
  | ok job =>
    rw [conclude, calls_bind]
    exact calls_closeAll hc (calls_awaitStages (fun _ _ => hP _) hr hQ)

end Waiting

theorem calls_terminateAll (hP : ∀ pid n, P b (.kill pid n)) {ss : List Stage}
    {Q : Bool → Unit → Prop} (hQ : Q b ()) : (JobBuilder.terminateAll ss).Calls P Q b := by
  induction ss with
  | nil => exact hQ
  | cons s ss ih =>
    rw [JobBuilder.terminateAll, calls_bind, calls_kill]
    exact ⟨hP _ _, fun _ => ih⟩

def Search.Names (name file : Bytes) : Prop :=
  file = name ∨ Byte.slash ∉ name ∧ ∃ d, file = d ++ Byte.slash :: name

/-- The programs that the search for `name` executes: the files it finds, and the script shell for
those that are no programs. -/
inductive Search.Executes (name : Bytes) (argv : List Bytes) : Bytes → List Bytes → Prop
  | program {file : Bytes} (h : Names name file) : Executes name argv file argv
  | script {file : Bytes} (h : Names name file) :
      Executes name argv scriptShell (scriptShell :: file :: argv.tail)

section Launching

variable {name : Bytes} {argv : List Bytes}
  (hx : ∀ path args, Search.Executes name argv path args → P b (.exec path args))
include hx

theorem calls_attempt {file : Bytes} (h : Search.Names name file) {Q : Bool → Errno → Prop}
    (hQ : ∀ e, Q b e) : (Search.attempt file argv).Calls P Q b := by
  unfold Search.attempt
  rw [calls_bind, calls_exec]
  refine ⟨hx _ _ (.program h), fun e => ?_⟩
  split
  · rw [calls_exec]; exact ⟨hx _ _ (.script h), hQ⟩
  · exact hQ _

theorem calls_attemptAll (hslash : Byte.slash ∉ name) {limit : Nat} {dirs : List Bytes}
    {denied : Bool} {last : Errno} {Q : Bool → Errno → Prop} (hQ : ∀ e, Q b e) :
    (Search.attemptAll limit name argv dirs denied last).Calls P Q b := by
  induction dirs generalizing denied last with
  | nil => exact hQ _
  | cons d ds ih =>
    rw [Search.attemptAll]
    split
    · exact hQ _
    · rw [calls_bind]
      refine calls_attempt hx ?_ fun e => ?_
      · split
        · exact .inl rfl
        · exact .inr ⟨hslash, d, rfl⟩
      · split
        · exact ih
        · exact hQ _

theorem calls_launch (hp : P b .environmentPath) {Q : Bool → Errno → Prop} (hQ : ∀ e, Q b e) :
    (Search.launch name argv).Calls P Q b := by
  unfold Search.launch
  split
  · exact hQ _
  · split
    · exact calls_attempt hx (.inl rfl) hQ
    · rw [calls_bind, calls_environmentPath]
      refine ⟨hp, fun path => ?_⟩
      split
      · exact hQ _
      · exact calls_attemptAll hx ‹_› hQ

end Launching

section Searching

variable (hP : ∀ path, P b (.access path))
include hP

theorem calls_anyExecutable {paths : List Bytes} {Q : Bool → Bool → Prop} (hQ : ∀ x, Q b x) :
    (Search.anyExecutable paths).Calls P Q b := by
  induction paths with
  | nil => exact hQ _
  | cons p ps ih =>
    rw [Search.anyExecutable, calls_bind]
    refine calls_executable (hP p) fun r => ?_
    split
    · exact hQ _
    · exact ih

theorem calls_resolvable {path : Option Bytes} {name : Bytes} {Q : Bool → Bool → Prop}
    (hQ : ∀ x, Q b x) : (Search.resolvable path name).Calls P Q b := by
  unfold Search.resolvable
  split
  · exact hQ _
  · split
    · exact calls_executable (hP _) hQ
    · split
      · exact hQ _
      · exact calls_anyExecutable hP hQ

end Searching

section SettingUp

variable (hP : ∀ c, SetsUp c → P b c)
include hP

theorem calls_openPath {path : Bytes} {mode : OpenMode} {Q : Bool → Except OpenError Fd → Prop}
    (hQ : ∀ r, Q b r) : (openPath path mode).Calls P Q b := by
  unfold openPath
  split
  · exact hQ _
  · rw [calls_bind, calls_openFile]
    refine ⟨hP _ trivial, fun r _ => ?_⟩
    split <;> exact hQ _

theorem calls_rebind {fd target : Fd} {Q : Bool → Except SetupError Unit → Prop}
    (hQ : ∀ r, Q b r) : (rebind fd target).Calls P Q b := by
  unfold rebind
  rw [calls_bind, calls_dup2]
  refine ⟨hP _ trivial, fun r => ?_⟩
  split
  · exact hQ _
  · rw [calls_bind, calls_close]
    refine ⟨hP _ trivial, fun r => ?_⟩
    split <;> exact hQ _

theorem calls_takeStdout {r : Redirect} {Q : Bool → Except SetupError Unit → Prop}
    (hQ : ∀ x, Q b x) : r.takeStdout.Calls P Q b := by
  unfold Redirect.takeStdout Redirect.openTarget
  rw [calls_bind]
  refine calls_openPath hP fun x => ?_
  split
  · exact hQ _
  · exact calls_rebind hP hQ

theorem calls_silenceStderr {sink : Bytes} {Q : Bool → Except SetupError Unit → Prop}
    (hQ : ∀ x, Q b x) : (silenceStderr sink).Calls P Q b := by
  unfold silenceStderr
  rw [calls_bind]
  refine calls_openPath hP fun x => ?_
  split
  · exact hQ _
  · exact calls_rebind hP hQ

theorem calls_wireOutput {after : Option Link} {r : Option Redirect}
    {Q : Bool → Except SetupError Unit → Prop} (hQ : ∀ x, Q b x) :
    (wireOutput after r).Calls P Q b := by
  unfold wireOutput
  split
  · rw [calls_bind, calls_dup2]
    refine ⟨hP _ trivial, fun x => ?_⟩
    split <;> exact hQ _
  · exact calls_takeStdout hP hQ
  · exact hQ _

theorem calls_wireStage {before after : Option Link} {r : Option Redirect}
    {Q : Bool → Except SetupError Unit → Prop} (hQ : ∀ x, Q b x) :
    (wireStage before after r).Calls P Q b := by
  cases before with
  | none => rw [wireStage_none]; exact calls_wireOutput hP hQ
  | some l =>
    rw [wireStage_some, calls_bind, calls_dup2]
    refine ⟨hP _ trivial, fun x => ?_⟩
    split
    · exact hQ _
    · exact calls_wireOutput hP hQ

end SettingUp

def afterSilence (c : Command) : Except SetupError Unit → Program Empty
  | .error _ => Program.exit 1
  | .ok () =>
    if Byte.nul ∈ c.name ∨ ∃ a ∈ c.arguments, Byte.nul ∈ a then Program.exit 1
    else Search.launch c.name (c.name :: c.arguments) >>= fun _ => Program.exit 1

theorem runInChild_external {s : State} {c : Command} {isTerminal : Bool}
    (hc : c.builtin? = none) :
    c.runInChild s isTerminal = silenceStderr s.nullSink >>= afterSilence c := by
  rw [Command.runInChild, hc]
  show (c.become s >>= fun _ => exit 1) = _
  rw [Command.become, bind_assoc]
  refine congrArg _ (funext fun x => ?_)
  obtain e | ⟨⟨⟩⟩ := x
  · rfl
  · unfold afterSilence
    dsimp only
    split
    · rfl
    · exact Program.bind_assoc _ _ _

theorem calls_afterSilence {c : Command} {x : Except SetupError Unit} {Q : Bool → Empty → Prop}
    (hx : ∀ path args, Search.Executes c.name (c.name :: c.arguments) path args →
      P b (.exec path args)) (hp : P b .environmentPath) (he : P b (.exit 1)) :
    (afterSilence c x).Calls P Q b := by
  unfold afterSilence
  split
  · exact calls_exit.2 he
  · split
    · exact calls_exit.2 he
    · rw [calls_bind]
      exact calls_launch hx hp fun _ => calls_exit.2 he

/-- The calls of a process that is to become the program of `c`, and exits with 1 if it cannot. -/
def Command.Tries (c : Command) : Syscall → Prop
  | .exec path args => Search.Executes c.name (c.name :: c.arguments) path args
  | .exit n => n = 1
  | .environmentPath => True
  | d => SetsUp d

theorem SetsUp.tries {c : Command} {d : Syscall} (h : SetsUp d) : c.Tries d := by
  cases d <;> trivial

theorem Command.Tries.conduct {c : Command} {d : Syscall} (h : c.Tries d) : Conduct true d := by
  cases d <;> trivial

theorem calls_runInChild_external {s : State} {c : Command} {isTerminal : Bool}
    {Q : Bool → Empty → Prop} (hc : c.builtin? = none) (hP : ∀ d, c.Tries d → P b d) :
    (c.runInChild s isTerminal).Calls P Q b := by
  rw [runInChild_external hc, calls_bind]
  refine calls_silenceStderr (fun d h => hP d h.tries) fun x => ?_
  exact calls_afterSilence (fun path args h => hP (.exec path args) h) (hP .environmentPath trivial)
    (hP (.exit 1) rfl)

theorem calls_stageChild_of_runInChild {s : State} {links : List Link} {r : Option Redirect}
    {n i : Nat} {c : Command} {Q : Bool → Empty → Prop} (hP : ∀ d, SetsUp d → P b d)
    (he : P b (.exit 1)) (hrun : (c.runInChild s (i + 1 == n)).Calls P Q b) :
    (stageChild s links r n i c).Calls P Q b := by
  unfold stageChild
  rw [calls_bind]
  refine calls_wireStage hP fun x => ?_
  rw [calls_bind]
  refine calls_closeAll (fun fd => hP (.close fd) trivial) ?_
  split
  · exact calls_exit.2 he
  · exact hrun

section BothSides

variable (hP : ∀ b c, Conduct b c → P b c)
include hP

theorem calls_runInChild {s : State} {c : Command} {isTerminal : Bool} {Q : Bool → Empty → Prop} :
    (c.runInChild s isTerminal).Calls P Q true := by
  have hleave : (Builtin.leave c.arguments).Calls P Q true := calls_exit.2 (hP _ _ trivial)
  by_cases hc : c.builtin? = none
  · exact calls_runInChild_external hc fun d h => hP true d h.conduct
  unfold Command.runInChild
  split
  · split
    · exact hleave
    · rw [calls_bind, calls_close]
      exact ⟨hP _ _ trivial, fun _ => hleave⟩
  · rw [calls_bind]
    exact calls_changeDirectory (hP _ _ trivial) fun n => calls_exit.2 (hP _ _ trivial)
  · exact absurd ‹_› hc

theorem calls_redirectedChild {s : State} {c : Command} {r : Redirect} {Q : Bool → Empty → Prop} :
    (redirectedChild s c r).Calls P Q true := by
  have he : (exit 1).Calls P Q true := calls_exit.2 (hP _ _ trivial)
  unfold redirectedChild
  rw [calls_bind]
  refine calls_silenceStderr (fun c h => hP true c h.conduct) fun _ => ?_
  rw [calls_bind]
  refine calls_takeStdout (fun c h => hP true c h.conduct) fun x => ?_
  have hr : ∀ x : Bool, (if x = true then c.runInChild s true else exit 1).Calls P Q true := by
    intro x
    split
    · exact calls_runInChild hP
    · exact he
  split
  · exact he
  · split
    · rw [calls_bind]; exact calls_resolvable (fun _ => hP true _ trivial) hr
    · exact hr true

theorem calls_stageChild {s : State} {links : List Link} {r : Option Redirect} {n i : Nat}
    {c : Command} {Q : Bool → Empty → Prop} : (stageChild s links r n i c).Calls P Q true :=
  calls_stageChild_of_runInChild (fun d h => hP true d h.conduct) (hP true (.exit 1) trivial)
    (calls_runInChild hP)

theorem calls_pushFork {j : JobBuilder} {Q : Bool → Except Errno (ForkSide × JobBuilder) → Prop}
    (he : ∀ e, Q false (.error e)) (hc : Q true (.ok (.child, j)))
    (hp : ∀ pid j, Q false (.ok (.parent pid, j))) : j.pushFork.Calls P Q false := by
  unfold JobBuilder.pushFork
  rw [calls_bind, calls_fork]
  refine ⟨hP _ _ trivial, he, ?_, fun pid => hp _ _⟩
  rw [calls_bind, calls_defaultBrokenPipe]
  exact ⟨hP _ _ trivial, hc⟩

theorem calls_forkAndWait {child : Program Empty} (hc : child.Calls P (fun _ _ => True) true) :
    (forkAndWait child).Calls P InShell false := by
  unfold forkAndWait
  rw [calls_bind]
  refine calls_pushFork hP (fun e => ?_) (calls_never.2 hc) fun pid j => ?_
  · rw [calls_bind]
    exact calls_report (fun _ => hP false _ rfl) rfl
  · rw [calls_bind]
    refine calls_jobWait (fun _ _ => hP false _ trivial) fun (j, e) => ?_
    match e with
    | none => rfl
    | some e => rw [calls_bind]; exact calls_report (fun _ => hP false _ rfl) rfl

theorem calls_runSingle {s : State} {c : Command}
    (hc : c.builtin? = some .cd → P false (.chdir (c.arguments.headD (Bytes.ofAscii "."))))
    (hx : c.builtin? = some .exit → P false (.exit (ExitCode.ofArguments c.arguments))) :
    (runSingle s c).Calls P InShell false := by
  unfold runSingle
  split
  · exact calls_changeDirectory (hc ‹_›) fun _ => rfl
  · exact calls_never.2 (calls_exit.2 (hx ‹_›))
  · rw [calls_bind]
    refine calls_resolvable (fun _ => hP false _ trivial) fun x => ?_
    split
    · exact calls_forkAndWait hP (calls_runInChild hP)
    · rfl

theorem calls_runRedirected {s : State} {c : Command} {r : Redirect} :
    (runRedirected s c r).Calls P InShell false :=
  calls_forkAndWait hP (calls_redirectedChild hP)

section Pipelines

theorem calls_spawnStages (hk : ∀ pid n, P false (.kill pid n)) {s : State}
    {commands : List Command} {links : List Link} {r : Option Redirect} :
    (spawnStages s commands links r).Calls P InShell false := by
  have hgo : ∀ cs j i, (spawnStages.go s commands links r j i cs).Calls P InShell false := by
    intro cs
    induction cs with
    | nil => intro j i; rfl
    | cons c cs ih =>
      intro j i
      rw [spawnStages.go, calls_bind]
      refine calls_pushFork hP (fun e => ?_) (calls_never.2 (calls_stageChild hP))
        fun pid j => ih j _
      rw [JobBuilder.abandon, calls_bind]
      exact calls_terminateAll hk rfl
  exact hgo _ _ _

variable (hp : ∀ c, Plumbing c → P false c)
include hp

theorem calls_runStages {s : State} {l : CommandLine} {links : List Link} :
    (runStages s l links).Calls P InShell false := by
  rw [runStages, calls_bind]
  refine (calls_spawnStages hP fun _ _ => hp _ trivial).mono fun b x hb => ?_
  obtain rfl : b = false := hb
  exact calls_conclude (fun _ => hP false _ trivial) (fun _ => hP false _ rfl)
    (fun _ => hp _ trivial) fun _ => rfl

section Sources

variable {σ : Type} {source : σ → Program (Except Errno Link × σ)}
  (hsource : ∀ st, (source st).Calls P InShell false)
include hsource

omit hP in
theorem calls_openMany {st : σ} {n : Nat} :
    (Link.openMany source st n).Calls P InShell false := by
  have hgo : ∀ n opened st, (Link.openMany.go source opened st n).Calls P InShell false := by
    intro n
    induction n with
    | zero => intro opened st; rfl
    | succ n ih =>
      intro opened st
      rw [Link.openMany.go, calls_bind]
      refine (hsource st).mono fun b x hb => ?_
      obtain rfl : b = false := hb
      split
      · exact ih _ _
      · rw [calls_bind]; exact calls_closeAll (fun _ => hp _ trivial) rfl
  exact hgo _ _ _

theorem calls_runPipelineWith {start : σ} {s : State} {l : CommandLine} :
    (runPipelineWith source start s l).Calls P InShell false := by
  by_cases hl : l.commands = []
  · rw [runPipelineWith, if_pos hl]
    rfl
  · rw [runPipelineWith_eq hl, calls_bind]
    refine (calls_openMany hp hsource).mono fun b x hb => ?_
    obtain rfl : b = false := hb
    split
    · rw [calls_bind]
      exact calls_report (fun _ => hP false _ rfl) rfl
    · exact calls_runStages hP hp

end Sources

omit hP in
theorem calls_create : Link.create.Calls P InShell false := by
  unfold Link.create
  rw [calls_bind, calls_pipe]
  refine ⟨hp _ trivial, fun r => ?_⟩
  split <;> rfl

theorem calls_runPipeline {s : State} {l : CommandLine} :
    (runPipeline s l).Calls P InShell false := by
  refine calls_runPipelineWith hP hp fun _ => ?_
  rw [calls_bind]
  exact (calls_create hp).mono fun _ _ hb => hb

end Pipelines

end BothSides

section Lines

variable {s : State} {l : CommandLine} (hP : ∀ b c, l.Makes b c → P b c)
include hP

theorem calls_runLine : (runLine s l).Calls P InShell false := by
  have hconduct : ∀ b c, Conduct b c → P b c := fun b c h => hP b c (.conduct h)
  unfold runLine
  split
  · rename_i hp
    exact calls_runPipeline hconduct fun c h => hP _ _ (.plumbing hp h)
  · split
    · rfl
    · exact calls_runRedirected hconduct
    · rename_i hp _ _ c _ hc hr
      have hp : l.hasPipes = false := by simpa using hp
      have hhead : l.commands.head? = some c := by rw [hc, List.head?_cons]
      exact calls_runSingle hconduct (fun hb => hP _ _ (.moves ⟨hb, hp, hr, hhead⟩))
        fun hb => hP _ _ (.ends ⟨hb, .inr ⟨hp, hr, hhead⟩⟩)

/-- What evaluation calls upon, and that it is the shell that returns from it. -/
theorem calls_evalLine : (evalLine s l).Calls P InShell false := by
  unfold evalLine
  split
  · rename_i c hc
    split
    · rename_i hb
      exact calls_never.2 (calls_exit.2 (hP _ _ (.ends ⟨hb, .inl hc⟩)))
    · rename_i hb hr
      obtain ⟨hp, hcs⟩ := CommandLine.of_soleCommand hc
      have hhead : l.commands.head? = some c := by rw [hcs, List.head?_cons]
      exact calls_changeDirectory (hP _ _ (.moves ⟨hb, hp, hr, hhead⟩)) fun _ => rfl
    · exact calls_runLine hP
  · exact calls_runLine hP

theorem calls_eval : (eval s l).Calls P InShell false := by
  unfold eval
  rw [calls_bind]
  exact (calls_evalLine hP).mono fun _ _ hb => hb

end Lines

theorem returns_eval_iff {s s' : State} {l : CommandLine} {es : List Event} {status : UInt8} :
    (eval s l).Returns es (status, s') ↔
      (evalLine s l).Returns es status ∧ s' = { s with lastStatus := status } := by
  rw [eval, returns_bind_iff]
  constructor
  · rintro ⟨n, es₁, es₂, rfl, h₁, h₂⟩
    obtain ⟨rfl, h⟩ := returns_done_iff.1 h₂
    obtain ⟨rfl, rfl⟩ := Prod.mk.inj h
    rw [List.append_nil]
    exact ⟨h₁, rfl⟩
  · rintro ⟨h, rfl⟩
    exact ⟨status, es, [], (List.append_nil es).symm, h, returns_done_iff.2 ⟨rfl, rfl⟩⟩

theorem evalLine_of_endsShell {s : State} {l : CommandLine} {c : Command} (h : l.EndsShell c) :
    evalLine s l = never (Builtin.leave c.arguments) := by
  obtain ⟨hb, hc | ⟨hp, hr, hc⟩⟩ := h
  · rw [evalLine, hc]
    simp [hb]
  · have hl : runLine s l = never (Builtin.leave c.arguments) := by
      obtain ⟨cs, hcs⟩ : ∃ cs, l.commands = c :: cs := List.head?_eq_some_iff.1 hc
      simp [runLine, hp, hcs, hr, runSingle, hb]
    unfold evalLine
    split
    · rename_i d hd
      rw [(CommandLine.of_soleCommand hd).2, List.head?_cons] at hc
      obtain rfl := Option.some.inj hc
      simp [hb]
    · exact hl

variable {s : State} {l : CommandLine} {es : List Event}

theorem exits_evalLine_iff {code : Int32} (ho : Own es) : (evalLine s l).Exits es code ↔
    es = [] ∧ ∃ c, l.EndsShell c ∧ code = ExitCode.ofArguments c.arguments := by
  constructor
  · rintro ⟨again, k, hr⟩
    have hcalls : (evalLine s l).Calls l.Makes InShell false := calls_evalLine fun _ _ h => h
    have hq := (hcalls.of_reaches hr).2
    rw [inChild_eq_false_iff.2 ho] at hq
    obtain ⟨d, hd, hcode⟩ : ∃ d, l.EndsShell d ∧ code = ExitCode.ofArguments d.arguments := by
      cases hq.1 with
      | conduct h => cases h
      | plumbing _ h => cases h
      | ends hd => exact ⟨_, hd, rfl⟩
    rw [evalLine_of_endsShell hd] at hr
    obtain ⟨p', hp, -⟩ := reaches_never_iff.1 hr
    have : es = [] := by
      obtain ⟨he, -⟩ | ⟨r, -⟩ := reaches_ask_iff.1 hp
      · exact he
      · exact r.elim
    exact ⟨this, d, hd, hcode⟩
  · rintro ⟨rfl, c, hc, rfl⟩
    rw [evalLine_of_endsShell hc]
    exact exits_never_iff.2 (exits_exit_iff.2 ⟨rfl, rfl⟩)

theorem own_of_returns_evalLine {status : UInt8} (h : (evalLine s l).Returns es status) :
    Own es := by
  have hcalls : (evalLine s l).Calls l.Makes InShell false := calls_evalLine fun _ _ h => h
  exact inChild_eq_false_iff.1 (hcalls.of_reaches h).2

theorem makes_of_reaches_evalLine {q : Program UInt8} (h : (evalLine s l).Reaches es q)
    (ho : Own es) : ∀ e ∈ es, l.Makes false e.call := by
  have hcalls : (evalLine s l).Calls l.Makes InShell false := calls_evalLine fun _ _ h => h
  exact (hcalls.of_reaches h).1.of_own ho

end PipeShell
