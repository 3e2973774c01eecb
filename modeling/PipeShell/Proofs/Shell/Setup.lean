import PipeShell.Proofs.Program.Acts
import PipeShell.Proofs.Shell.Conduct

/-! Setting up a pipeline: the links are opened one after the other, and then the stages are forked
one after the other. After the first failure nothing more is opened or forked, and what there is is
given up: the stages are told to terminate and the links are closed. Main statement: which calls
those are, at whatever point the setup fails, and that nobody is told to terminate if it does not
(`setup_all_or_cleanup`). -/
namespace PipeShell

open Program

def Link.closes (ls : List Link) : List Act :=
  ls.flatMap fun l => [.call (.close l.readEnd), .call (.close l.writeEnd)]

def complaint (what : String) (e : Errno) : Act :=
  .say (Bytes.ofAscii ("msh: " ++ what ++ ": " ++ e.report ++ "\n"))

def terminates (pids : List Pid) : List Act := pids.map fun pid => .call (.kill pid Signal.terminate)

theorem performs_closeAll (ls : List Link) :
    (Link.closeAll ls).Performs (Link.closes ls) () := by
  induction ls with
  | nil => exact performs_done ()
  | cons l ls ih =>
    have h := ih.ask (c := .close l.writeEnd) (.ok ())
    exact h.ask (c := .close l.readEnd) (.ok ())

theorem performs_report (what : String) (e : Errno) :
    (report what e).Performs [complaint what e] () := performs_say _

theorem performs_terminateAll (ss : List Stage) :
    (JobBuilder.terminateAll ss).Performs (terminates (ss.map Stage.pid)) () := by
  induction ss with
  | nil => exact performs_done ()
  | cons s ss ih => exact ih.ask (c := .kill s.pid Signal.terminate) (.ok ())

theorem performs_abandon (b : JobBuilder) :
    b.abandon.Performs (terminates (b.stages.map Stage.pid)) () :=
  performs_terminateAll b.stages

section Links

variable {σ : Type} {source : σ → Program (Except Errno Link × σ)} {st st₁ st₂ : σ}
  {es fs : List Event} {ls : List Link}

/-- Calls of `source`, one after the other, all of which give a link. -/
inductive Link.Opens (source : σ → Program (Except Errno Link × σ)) :
    σ → List Event → List Link → σ → Prop
  | nil (st : σ) : Opens source st [] [] st
  | cons {st st₁ st₂ : σ} {es fs : List Event} {l : Link} {ls : List Link}
      (h : (source st).Returns es (.ok l, st₁)) (hs : Opens source st₁ fs ls st₂) :
      Opens source st (es ++ fs) (l :: ls) st₂

theorem Link.Opens.reaches (h : Opens source st es ls st₁) (opened : List Link) (n : Nat) :
    (openMany.go source opened st (ls.length + n)).Reaches es
      (openMany.go source (opened ++ ls) st₁ n) := by
  induction h generalizing opened with
  | nil => simp
  | @cons st st₁ st₂ es fs l ls h hs ih =>
    rw [List.length_cons, Nat.add_right_comm, openMany.go]
    refine reaches_bind_iff.2 (.inr ⟨_, es, fs, rfl, h, ?_⟩)
    simpa using ih (opened ++ [l])

theorem Link.Opens.returns (h : Opens source st es ls st₁) :
    (openMany source st ls.length).Returns es (.ok ls, st₁) := h.reaches [] 0

theorem Link.Opens.reaches_error {e : Errno} (h : Opens source st es ls st₁)
    (he : (source st₁).Returns fs (.error e, st₂)) {n : Nat} (hn : ls.length < n) :
    (openMany source st n).Reaches (es ++ fs)
      (closeAll ls >>= fun _ => done (.error e, st₂)) := by
  obtain ⟨m, rfl⟩ : ∃ m, n = ls.length + (m + 1) := ⟨n - ls.length - 1, by omega⟩
  refine (h.reaches [] (m + 1)).trans ?_
  rw [openMany.go]
  exact reaches_bind_iff.2 (.inr ⟨_, fs, [], (List.append_nil fs).symm, he, .refl _⟩)

end Links

def JobBuilder.push (b : JobBuilder) (pid : Pid) : JobBuilder :=
  { b with stages := b.stages ++
      [⟨pid, b.stages.length, b.stages.length + 1 == b.size, none⟩] }

/-- Forks that succeed, as the parent sees them. -/
def forks (pids : List Pid) : List Event := pids.map fun pid => ⟨.fork, .ok (.parent pid)⟩

@[simp] theorem own_forks (pids : List Pid) : Own (forks pids) := by
  simp [Own, forks, Event.isBirth]

theorem forks_append (pids pids' : List Pid) : forks (pids ++ pids') = forks pids ++ forks pids' :=
  List.map_append

theorem forks_cons (pid : Pid) (pids : List Pid) :
    forks (pid :: pids) = ⟨.fork, .ok (.parent pid)⟩ :: forks pids := rfl

theorem forks_inj {pids pids' : List Pid} (h : forks pids = forks pids') : pids = pids' :=
  (List.map_inj_right fun _ _ => parent_inj).1 h

theorem pids_foldl_push (pids : List Pid) (b : JobBuilder) :
    (pids.foldl JobBuilder.push b).stages.map Stage.pid = b.stages.map Stage.pid ++ pids := by
  induction pids generalizing b with
  | nil => simp
  | cons pid pids ih => simp [ih, JobBuilder.push]

variable (s : State) (links : List Link) (r : Option Redirect)

theorem returns_pushFork_parent (b : JobBuilder) (pid : Pid) :
    b.pushFork.Returns [⟨.fork, .ok (.parent pid)⟩] (.ok (.parent pid, b.push pid)) :=
  returns_bind_iff.2 ⟨_, [_], [], rfl, returns_fork_iff.2 rfl, .refl _⟩

theorem returns_pushFork_error (b : JobBuilder) (e : Errno) :
    b.pushFork.Returns [⟨.fork, .error e⟩] (.error e) :=
  returns_bind_iff.2 ⟨_, [_], [], rfl, returns_fork_iff.2 rfl, .refl _⟩

theorem reaches_forks (all : List Command) (pids : List Pid) (b : JobBuilder) (i : Nat)
    (cs : List Command) (h : pids.length ≤ cs.length) :
    (spawnStages.go s all links r b i cs).Reaches (forks pids)
      (spawnStages.go s all links r (pids.foldl JobBuilder.push b) (i + pids.length)
        (cs.drop pids.length)) := by
  induction pids generalizing b i cs with
  | nil => simp [forks]
  | cons pid pids ih =>
    cases cs with
    | nil => simp at h
    | cons c cs =>
      have := ih (b.push pid) (i + 1) cs (by simpa using h)
      rw [Nat.add_right_comm, Nat.add_assoc] at this
      rw [spawnStages.go]
      exact reaches_bind_iff.2 (.inr ⟨_, [_], _, rfl, returns_pushFork_parent b pid, this⟩)

theorem returns_spawnStages {commands : List Command} {pids : List Pid}
    (h : pids.length = commands.length) :
    (spawnStages s commands links r).Returns (forks pids)
      (.ok (pids.foldl JobBuilder.push (JobBuilder.ofSize commands.length)).build) := by
  have := reaches_forks s links r commands pids (JobBuilder.ofSize commands.length) 0 commands
    (Nat.le_of_eq h)
  rwa [h, List.drop_length] at this

theorem reaches_spawnStages_error {commands : List Command} {pids : List Pid} {e : Errno}
    (h : pids.length < commands.length) :
    ∃ b : JobBuilder, b.stages.map Stage.pid = pids ∧
      (spawnStages s commands links r).Reaches (forks pids ++ [⟨.fork, .error e⟩])
        (b.abandon >>= fun _ => done (.error e)) := by
  refine ⟨pids.foldl JobBuilder.push (JobBuilder.ofSize commands.length), ?_, ?_⟩
  · simp [pids_foldl_push, JobBuilder.ofSize]
  · refine (reaches_forks s links r commands pids _ 0 commands (Nat.le_of_lt h)).trans ?_
    rw [List.drop_eq_getElem_cons h, spawnStages.go]
    exact reaches_bind_iff.2 (.inr ⟨_, [_], [], rfl, returns_pushFork_error _ e, .refl _⟩)

/-- How far the shell, or a child of it, can have come with forking the stages. -/
theorem reaches_spawnStages_cases {all cs : List Command} {b : JobBuilder} {i : Nat}
    {es : List Event} {q : Program (Except Errno Job)}
    (h : (spawnStages.go s all links r b i cs).Reaches es q) : ∃ pids fs, es = forks pids ++ fs ∧
      ((pids.length < cs.length ∧ fs = [] ∧ ∃ again k, q = call .fork again k) ∨
        (pids.length = cs.length ∧ fs = [] ∧ q = done (.ok (pids.foldl JobBuilder.push b).build)) ∨
        (pids.length < cs.length ∧ ∃ e gs, fs = ⟨.fork, .error e⟩ :: gs ∧ Own gs) ∨
        (pids.length < cs.length ∧ ∃ gs z, fs = birth :: gs ∧ q = never z)) := by
  induction cs generalizing b i es with
  | nil =>
    obtain ⟨rfl, rfl⟩ := reaches_done_iff.1 h
    exact ⟨[], [], rfl, .inr (.inl ⟨rfl, rfl, rfl⟩)⟩
  | cons c cs ih =>
    have hpos : 0 < (c :: cs).length := Nat.zero_lt_succ _
    rw [spawnStages.go, JobBuilder.pushFork, bind_assoc] at h
    obtain ⟨rfl, rfl⟩ | ⟨x, gs, rfl, hx⟩ := reaches_call_iff.1 h
    · exact ⟨[], [], rfl, .inl ⟨hpos, rfl, _, _, rfl⟩⟩
    · rw [if_neg (by decide)] at hx
      obtain e | _ | pid := x
      · -- no more is forked
        have hcalls : (b.abandon >>= fun _ => done (.error e)).Calls (fun _ c => c ≠ .fork)
            (fun _ (_ : Except Errno Job) => True) false := by
          rw [JobBuilder.abandon, calls_bind]
          exact calls_terminateAll (fun _ _ he => by cases he) trivial
        have ho := own_of_not_fork ((hcalls.of_reaches hx).1.imp fun _ _ h => h)
        exact ⟨[], _, rfl, .inr (.inr (.inl ⟨hpos, e, gs, rfl, ho⟩))⟩
      · have hx : (never (defaultBrokenPipe >>= fun _ => stageChild s links r all.length i c) :
          Program (Except Errno Job)).Reaches gs q := hx
        obtain ⟨z, -, rfl⟩ := reaches_never_iff.1 hx
        exact ⟨[], _, rfl, .inr (.inr (.inr ⟨hpos, gs, z, rfl, rfl⟩))⟩
      · obtain ⟨pids, fs, rfl, hcases⟩ := ih (b := b.push pid) hx
        refine ⟨pid :: pids, fs, rfl, ?_⟩
        simpa [Nat.succ_lt_succ_iff] using hcases

section Pipelines

variable {σ : Type} {source : σ → Program (Except Errno Link × σ)} {st st₁ st₂ : σ}
  {es fs : List Event} {ls : List Link} {l : CommandLine}

theorem reaches_runStages {s : State} (h : Link.Opens source st es ls st₁)
    (hn : ls.length + 1 = l.commands.length) :
    (runPipelineWith source st s l).Reaches es (runStages s l ls) := by
  have hl : l.commands ≠ [] := by
    rintro hl
    simp [hl] at hn
  rw [runPipelineWith_eq hl, ← hn, Nat.add_sub_cancel]
  exact reaches_bind_iff.2 (.inr ⟨_, es, [], (List.append_nil es).symm, h.returns, .refl _⟩)

def Syscall.isSignal : Syscall → Bool
  | .kill _ _ => true
  | _ => false

/-- A pipeline is set up altogether or not at all. If a link cannot be opened, those before it are
closed and nothing is forked. If a stage cannot be forked, those before it are told to terminate,
each once, and all links are closed. In both cases the status is 1, whatever the commands are. If
all stages have been forked the shell sends no signal, and a stage never does. -/
theorem setup_all_or_cleanup (s : State) (l : CommandLine) (h : Link.Opens source st es ls st₁) :
    (∀ fs e st₂, ls.length + 1 < l.commands.length → (source st₁).Returns fs (.error e, st₂) →
      ∃ p, (runPipelineWith source st s l).Reaches (es ++ fs) p ∧
        p.Performs (Link.closes ls ++ [complaint "pipe" e]) 1) ∧
    (ls.length + 1 = l.commands.length → ∀ pids e, pids.length < l.commands.length →
      ∃ p, (runPipelineWith source st s l).Reaches (es ++ forks pids ++ [⟨.fork, .error e⟩]) p ∧
        p.Performs (terminates pids ++ complaint "fork" e :: Link.closes ls) 1) ∧
    (ls.length + 1 = l.commands.length → ∀ pids fs q, pids.length = l.commands.length →
      (runPipelineWith source st s l).Reaches (es ++ forks pids ++ fs) q →
        ∀ e ∈ fs, e.call.isSignal = false) ∧
    (ls.length + 1 = l.commands.length → ∀ pids fs q,
      (runPipelineWith source st s l).Reaches (es ++ forks pids ++ ⟨.fork, .ok .child⟩ :: fs) q →
        ∀ e ∈ fs, e.call.isSignal = false) := by
  refine ⟨?_, ?_, ?_, ?_⟩
  · -- a link cannot be opened
    intro fs e st₂ hn he
    have hl : l.commands ≠ [] := by
      rintro hl
      simp [hl] at hn
    have hclosed := (performs_closeAll ls).andThen
      (performs_done (Except.error (α := List Link) e, st₂))
    have hreport := (performs_report "pipe" e).andThen (performs_done (1 : UInt8))
    rw [List.append_nil] at hclosed hreport
    rw [runPipelineWith_eq hl]
    exact ⟨_, (h.reaches_error he (by omega)).bind _, hclosed.bind hreport⟩
  · -- a stage cannot be forked
    intro hn pids e hk
    obtain ⟨b, rfl, hb⟩ := reaches_spawnStages_error s ls l.redirect (e := e) hk
    have hkilled := (performs_abandon b).andThen
      (performs_done (Except.error (α := Job) e))
    have hclosed := (performs_closeAll ls).andThen (performs_done (1 : UInt8))
    have hp := hkilled.bind (f := conclude l ls) ((performs_report "fork" e).andThen hclosed)
    rw [List.append_assoc]
    rw [List.append_nil, List.append_nil] at hp
    exact ⟨_, (reaches_runStages h hn).trans (hb.bind _), hp⟩
  · -- every stage has been forked
    intro hn pids fs q hk hq
    obtain ⟨q', hq', hfs⟩ := hq.of_append
    have hforked := (returns_spawnStages s ls l.redirect hk).bind (conclude l ls)
    obtain rfl := hq'.unique ((reaches_runStages h hn).trans hforked)
    have hc : ∀ x,
        (conclude l ls x).Calls (fun _ c => c.isSignal = false) (fun _ _ => True) false :=
      fun _ => calls_conclude (fun _ => rfl) (fun _ => rfl) (fun _ => rfl) fun _ => trivial
    rw [done_bind] at hfs
    exact ((hc _).of_reaches hfs).1.imp fun _ _ h => h
  · -- in a stage
    intro hn pids fs q hq
    obtain ⟨q', hq', hfs⟩ := (List.append_assoc es _ _ ▸ hq).of_append
    obtain rfl := hq'.unique (reaches_runStages h hn)
    have hc : (runStages s l ls).Calls (fun b c => Conduct b c ∨ b = false) InShell false :=
      calls_runStages (fun _ _ => .inl) fun _ _ => .inr rfl
    have hchild := (EventsSatisfy.append.1 (hc.of_reaches hfs).1).2.2
    have hbirth : (⟨.fork, .ok .child⟩ : Event).isBirth = true := rfl
    rw [hbirth, Bool.or_true] at hchild
    rintro ⟨c, r⟩ he
    have hconduct : Conduct true c := (hchild.of_child _ he).resolve_right nofun
    cases c <;> first | rfl | cases hconduct

end Pipelines

/-- A pipeline of three with an `exit` in it: its second link cannot be opened, its second stage
cannot be forked, or all is well. -/
theorem setup_of_three :
    let exit3 : Command := ⟨Bytes.ofAscii "exit", [Bytes.ofAscii "3"]⟩
    let cat : Command := ⟨Bytes.ofAscii "cat", []⟩
    let l : CommandLine := ⟨[.command cat, .pipe, .command exit3, .pipe, .command cat], none⟩
    let s := State.ofSearchPath none
    let opened : List Event := [⟨.pipe, .ok (3, 4)⟩, ⟨.pipe, .ok (5, 6)⟩]
    (∃ p, (runPipeline s l).Reaches [⟨.pipe, .ok (3, 4)⟩, ⟨.pipe, .error Errno.tooManyFiles⟩] p ∧
      p.Performs [.call (.close 3), .call (.close 4), complaint "pipe" Errno.tooManyFiles] 1) ∧
    (∃ p, (runPipeline s l).Reaches
        (opened ++ [⟨.fork, .ok (.parent 7)⟩] ++ [⟨.fork, .error Errno.again⟩]) p ∧
      p.Performs [.call (.kill 7 Signal.terminate), complaint "fork" Errno.again,
        .call (.close 3), .call (.close 4), .call (.close 5), .call (.close 6)] 1) ∧
    (∀ e ∈ [(⟨.close 3, .ok ()⟩ : Event)], e.call.isSignal = false) ∧
    (∀ e ∈ [(⟨.defaultBrokenPipe, ()⟩ : Event)], e.call.isSignal = false) := by
  intro exit3 cat l s opened
  let source : Unit → Program (Except Errno Link × Unit) := fun () => do
    return (← Link.create, ())
  have hopen : ∀ r w, (source ()).Returns [⟨.pipe, .ok (r, w)⟩] (.ok ⟨r, w⟩, ()) :=
    fun r w => .next rfl (.refl _)
  have h₁ : Link.Opens source () [⟨.pipe, .ok (3, 4)⟩] [⟨3, 4⟩] () := .cons (hopen 3 4) (.nil ())
  have h₂ : Link.Opens source () opened [⟨3, 4⟩, ⟨5, 6⟩] () :=
    .cons (hopen 3 4) (.cons (hopen 5 6) (.nil ()))
  obtain ⟨-, hfork, hshell, hstage⟩ := setup_all_or_cleanup s l h₂
  refine ⟨?_, ?_, ?_, ?_⟩
  · exact (setup_all_or_cleanup s l h₁).1 [⟨.pipe, .error Errno.tooManyFiles⟩] _ () (by decide)
      (.next rfl (.refl _))
  · exact hfork rfl [7] _ (by decide)
  · exact hshell rfl [7, 8, 9] [⟨.close 3, .ok ()⟩] _ rfl (.next rfl (.next rfl (.next rfl
      (.next rfl (.next rfl (.next rfl (.refl _)))))))
  · exact hstage rfl [7] [⟨.defaultBrokenPipe, ()⟩] _ (.next rfl (.next rfl (.next rfl
      (.next rfl (.next rfl (.refl _))))))

end PipeShell
