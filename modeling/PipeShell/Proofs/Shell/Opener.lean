import PipeShell.Proofs.Program.Watch
import PipeShell.Proofs.Shell.Dispatch

/-! Who opens the target of a redirection. While a line with a redirection is evaluated, it is kept
in mind of every process whether it is the shell or which of its children, and whether it has opened
the target or changed its directory. Main statement: the target is opened by the last child alone,
once, from the directory of the shell, and before that child finds out about its command or exits
(`heeds_eval`). -/
namespace PipeShell

open Program

def CommandLine.stages (l : CommandLine) : Nat := if l.hasPipes then l.commands.length else 1

theorem CommandLine.stages_pos (l : CommandLine) : 0 < l.stages := by
  unfold stages
  split
  · rename_i h
    have hcommand : ∀ nodes, hasPipes.go nodes = true →
        0 < (nodes.filterMap Node.command?).length := by
      intro nodes hgo
      fun_induction hasPipes.go nodes with
      | case1 c nodes => simp [Node.command?]
      | case2 node nodes hne ih =>
        have hpos := ih hgo
        rw [List.filterMap_cons]
        split
        · exact hpos
        · exact Nat.succ_pos _
      | case3 => cases hgo
    exact hcommand l.nodes h
  · exact Nat.one_pos

/-- How a child stands with the target: it has yet to open it, it has failed to open it or to get as
far as that, or it has opened it. -/
inductive TargetState
  | due
  | failed
  | opened
  deriving DecidableEq, Repr

/-- What an event decides about the target. An attempt that is interrupted is made again. -/
def Event.settles : Event → Option TargetState
  | ⟨.openFile _ (.create _), r⟩ => match (r : Except Errno Fd) with
    | .ok _ => some .opened
    | .error e => if e = Errno.interrupted then none else some .failed
  | ⟨.dup2 _ target, r⟩ => if target = Fd.stdin then match (r : Except Errno Unit) with
      | .ok _ => none
      | .error _ => some .failed
    else none
  | _ => none

theorem Event.settles_eq_opened {e : Event} (h : e.settles = some .opened) :
    ∃ path mode fd, e = ⟨.openFile path (.create mode), .ok fd⟩ := by
  obtain ⟨c, r⟩ := e
  cases c with
  | openFile path mode =>
    cases mode with
    | create mode =>
      obtain e | fd := r
      · simp [settles] at h
      · exact ⟨path, mode, fd, rfl⟩
    | _ => cases h
  | dup2 fd target =>
    obtain e | u := r
    · simp [settles] at h
    · simp [settles] at h
  | _ => cases h

def Event.moves : Event → Bool
  | ⟨.chdir _, r⟩ => Except.isOk (r : Except Errno Unit)
  | _ => false

def TargetState.after (a : TargetState) (e : Event) : TargetState :=
  match e.settles with
  | none => a
  | some b => if a = due then b else a

/-- What a process has become in the course of an evaluation: it is the shell, which has forked so
many children, or the child of fork number `i`. -/
inductive Standing
  | shell (forks : Nat)
  | child (i : Nat) (target : TargetState) (moved : Bool)
  deriving DecidableEq, Repr

namespace Standing

def next : Standing → Event → Standing
  | shell k, ⟨.fork, r⟩ => match (r : Except Errno ForkSide) with
    | .ok .child => child k .due false
    | .ok (.parent _) => shell (k + 1)
    | .error _ => shell k
  | shell k, _ => shell k
  | child i a moved, e => child i (a.after e) (e.moves || moved)

/-- The calls of the evaluation of the line `l`, which has the redirection `r`. -/
def permits (st : State) (l : CommandLine) (r : Redirect) : Standing → Syscall → Prop
  | shell _, .openFile _ _ | shell _, .dup2 _ _ | shell _, .chdir _ | shell _, .exec _ _
  | shell _, .access _ | shell _, .environmentPath => False
  | shell _, _ => True
  | child _ _ moved, .openFile path .write => path = st.nullSink ∧ moved = false
  | child i a moved, .openFile path (.create mode) =>
    r = ⟨path, mode⟩ ∧ i + 1 = l.stages ∧ a = .due ∧ moved = false
  | child i a _, .exec _ _ =>
    (∃ c, l.commands[i]? = some c ∧ c.builtin? = none) ∧ (i + 1 = l.stages → a = .opened)
  | child i a _, .access _ | child i a _, .environmentPath | child i a _, .chdir _ =>
    i + 1 = l.stages → a = .opened
  | child i a _, .exit _ => i + 1 = l.stages → a = .due → Byte.nul ∈ r.target
  | child _ a _, .dup2 _ target => target = Fd.stdin → a = .due
  | child _ _ _, .close _ | child _ _ _, .defaultBrokenPipe => True
  | child _ _ _, _ => False

end Standing

def CommandLine.watch (st : State) (l : CommandLine) (r : Redirect) : Watch Standing :=
  ⟨Standing.next, Standing.permits st l r⟩

variable {st : State} {l : CommandLine} {r : Redirect} {i k : Nat} {a : TargetState} {v : Bool}
  {c : Command} {α : Type}

theorem ignores_dup2 (fd : Fd) {target : Fd} (ht : target ≠ Fd.stdin) :
    (l.watch st r).Ignores (.child i a v) (.dup2 fd target) :=
  ⟨fun h => absurd h ht, fun _ => by
    simp [CommandLine.watch, Standing.next, TargetState.after, Event.settles, Event.moves, ht]⟩

theorem ignores_close (fd : Fd) : (l.watch st r).Ignores (.child i a v) (.close fd) :=
  ⟨trivial, fun _ => rfl⟩

theorem heeds_exit (n : Int32) (ha : i + 1 = l.stages → a = .due → Byte.nul ∈ r.target)
    {Q : Standing → Empty → Prop} : (exit n).Heeds (l.watch st r) Q (.child i a v) :=
  heeds_ask.2 ⟨ha, nofun⟩

theorem heeds_closeAll (links : List Link) {Q : Standing → Unit → Prop} (hQ : Q (.child i a v) ()) :
    (Link.closeAll links).Heeds (l.watch st r) Q (.child i a v) :=
  heeds_of_calls (b := true) (P := fun _ => (l.watch st r).Ignores (.child i a v))
    (R := fun _ _ => True) (calls_closeAll ignores_close trivial) (fun _ _ h => h) fun _ _ _ => hQ

theorem next_interrupted {path : Bytes} {mode : OpenMode} :
    Standing.next (.child i a v) ⟨.openFile path mode, .error Errno.interrupted⟩ =
      .child i a v := by
  cases mode <;> simp [Standing.next, TargetState.after, Event.settles, Event.moves]

theorem heeds_openAt {path : Bytes} {mode : OpenMode} {target : Fd} (ht : target ≠ Fd.stdin)
    {Q : Standing → Except SetupError Unit → Prop}
    (hp : Standing.permits st l r (.child i a v) (.openFile path mode))
    (hn : Byte.nul ∈ path → Q (.child i a v) (.error (.file .nulByte)))
    (he : ∀ e, e ≠ Errno.interrupted →
      Q (Standing.next (.child i a v) ⟨.openFile path mode, .error e⟩) (.error (.file (.system e))))
    (hQ : ∀ fd x, Q (Standing.next (.child i a v) ⟨.openFile path mode, .ok fd⟩) x) :
    (openAt path mode target).Heeds (l.watch st r) Q (.child i a v) := by
  have hrebind : ∀ fd i a v, (∀ x, Q (.child i a v) x) →
      (rebind fd target).Heeds (l.watch st r) Q (.child i a v) := by
    intro fd i a v hQ
    refine heeds_of_calls (b := true) (P := fun _ => (l.watch st r).Ignores (.child i a v))
      (R := fun _ _ => True) ?_ (fun _ _ h => h) fun _ x _ => hQ x
    unfold rebind
    rw [calls_bind, calls_dup2]
    refine ⟨ignores_dup2 _ ht, fun x => ?_⟩
    split
    · trivial
    · rw [calls_bind, calls_close]
      refine ⟨ignores_close _, fun x => ?_⟩
      split <;> trivial
  unfold openAt openPath
  split
  · exact hn ‹_›
  · rw [heeds_bind, heeds_bind]
    refine heeds_openFile.2 ⟨hp, next_interrupted, fun x hx => ?_⟩
    cases x with
    | error e => exact he e fun h => hx (congrArg _ h)
    | ok fd =>
      have hnext := hQ fd
      show (rebind fd target).Heeds _ Q (Standing.next (.child i a v) ⟨.openFile path mode, .ok fd⟩)
      cases mode <;> exact hrebind fd _ _ _ hnext

theorem heeds_silenceStderr {Q : Standing → Except SetupError Unit → Prop}
    (hQ : ∀ x, Q (.child i a false) x) :
    (silenceStderr st.nullSink).Heeds (l.watch st r) Q (.child i a false) :=
  heeds_openAt (by decide) ⟨rfl, rfl⟩ (fun _ => hQ _) (fun _ _ => hQ _) fun _ => hQ

theorem heeds_takeStdout (hi : i + 1 = l.stages) {Q : Standing → Except SetupError Unit → Prop}
    (hQ : ∀ a x, (x = .ok () → a = .opened) → (a = .due → Byte.nul ∈ r.target) →
      Q (.child i a false) x) :
    r.takeStdout.Heeds (l.watch st r) Q (.child i .due false) :=
  heeds_openAt (by decide) ⟨rfl, hi, rfl, rfl⟩ (fun hn => hQ _ _ nofun fun _ => hn)
    (fun e he => by
      have hsettles : Event.settles ⟨.openFile r.target (.create r.mode), .error e⟩ = some .failed :=
        if_neg he
      rw [Standing.next, TargetState.after, hsettles]
      exact hQ .failed _ (by simp) (by simp))
    fun _ _ => hQ .opened _ (fun _ => rfl) (by simp)

theorem heeds_exit_of_answer {y : Standing} {Q : Standing → Empty → Prop}
    (hexit : ∀ n, (exit n).Heeds (l.watch st r) Q y) (x : Except Errno Unit) :
    (match x with
      | .ok () => (return 0 : Program UInt8)
      | .error _ => return 1).Heeds (l.watch st r)
      (fun y (n : UInt8) => (exit n.toUInt32.toInt32).Heeds (l.watch st r) Q y) y := by
  split <;> exact hexit _

theorem heeds_runInChild (hc : l.commands[i]? = some c) (ha : i + 1 = l.stages → a = .opened)
    (isTerminal : Bool) {Q : Standing → Empty → Prop} :
    (c.runInChild st isTerminal).Heeds (l.watch st r) Q (.child i a false) := by
  by_cases hb : c.builtin? = none
  · rw [runInChild_external hb, heeds_bind]
    refine heeds_silenceStderr fun x => ?_
    have hafter : (afterSilence c x).Calls (fun _ => (l.watch st r).Ignores (.child i a false))
        (fun _ _ => True) true :=
      calls_afterSilence (fun _ _ _ => ⟨⟨⟨c, hc, hb⟩, ha⟩, fun _ => rfl⟩) ⟨ha, fun _ => rfl⟩
        ⟨fun hi hdue => (by cases hdue.symm.trans (ha hi)), fun _ => rfl⟩
    exact heeds_of_calls hafter (fun _ _ h => h) fun _ n => n.elim
  have hexit : ∀ n v, (exit n).Heeds (l.watch st r) Q (.child i a v) := fun n _ =>
    heeds_exit n fun hi hdue => by cases hdue.symm.trans (ha hi)
  unfold Command.runInChild
  split
  · split
    · exact hexit _ _
    · rw [heeds_bind]
      exact heeds_ask.2 ⟨trivial, fun _ => hexit _ _⟩
  · unfold Builtin.changeDirectory
    rw [heeds_bind, heeds_bind]
    by_cases hnul : Byte.nul ∈ c.arguments.headD (Bytes.ofAscii ".")
    · rw [chdir_of_mem hnul]
      exact heeds_exit_of_answer (fun n => hexit n false) (.error Errno.invalid)
    · rw [chdir_of_notMem hnul]
      exact heeds_ask.2 ⟨ha, fun x => heeds_exit_of_answer (fun n => hexit n _) x⟩
  · exact absurd ‹_› hb

theorem heeds_redirectedChild (hc : l.commands[0]? = some c) (hl : l.stages = 1)
    {Q : Standing → Empty → Prop} :
    (redirectedChild st c r).Heeds (l.watch st r) Q (.child 0 .due false) := by
  rw [redirectedChild_eq, heeds_bind]
  refine heeds_silenceStderr fun _ => ?_
  rw [heeds_bind]
  refine heeds_takeStdout hl.symm fun a x ha hdue => ?_
  obtain e | ⟨⟨⟩⟩ := x
  · exact heeds_exit _ fun _ => hdue
  · obtain rfl := ha rfl
    have hrun : ∀ x : Bool, (if x then c.runInChild st true else exit 1).Heeds (l.watch st r) Q
        (.child 0 .opened false) := by
      intro x
      split
      · exact heeds_runInChild hc (fun _ => rfl) true
      · exact heeds_exit _ fun _ hdue => by cases hdue
    unfold afterTarget
    rw [heeds_bind]
    split
    · have hsearch : (Search.resolvable st.searchPath c.name).Calls
          (fun _ => (l.watch st r).Ignores (.child 0 .opened false)) (fun _ _ => True) true :=
        calls_resolvable (fun _ => ⟨fun _ => rfl, fun _ => rfl⟩) fun _ => trivial
      exact heeds_of_calls hsearch (fun _ _ h => h) fun _ x _ => hrun x
    · exact hrun true

theorem heeds_stageChild {links : List Link} (hc : l.commands[i]? = some c)
    (hl : links.length + 1 = l.stages) (hi : i < l.stages) {n : Nat} {Q : Standing → Empty → Prop} :
    (stageChild st links (some r) n i c).Heeds (l.watch st r) Q (.child i .due false) := by
  have houtput : ∀ {Q : Standing → Except SetupError Unit → Prop},
      (∀ a x, (x = .ok () → i + 1 = l.stages → a = .opened) →
        (i + 1 = l.stages → a = .due → Byte.nul ∈ r.target) → Q (.child i a false) x) →
      (wireOutput links[i]? (some r)).Heeds (l.watch st r) Q (.child i .due false) := by
    intro Q hQ
    cases hk : links[i]? with
    | none =>
      have hlast : i + 1 = l.stages := by
        have := List.getElem?_eq_none_iff.1 hk
        omega
      exact heeds_takeStdout hlast fun a x ha hdue => hQ a x (fun hx _ => ha hx) fun _ => hdue
    | some k =>
      obtain ⟨hlt, -⟩ := List.getElem?_eq_some_iff.1 hk
      unfold wireOutput
      rw [heeds_bind]
      refine heeds_ask.2 ⟨fun _ => rfl, fun x => ?_⟩
      have hQ' : ∀ x, Q (.child i .due false) x := fun x =>
        hQ .due x (fun _ _ => by omega) fun _ => by omega
      split <;> exact hQ' _
  rw [stageChild_eq, heeds_bind]
  have hafter : ∀ a x, (x = .ok () → i + 1 = l.stages → a = .opened) →
      (i + 1 = l.stages → a = .due → Byte.nul ∈ r.target) →
      (Link.closeAll links >>= fun _ => afterWiring st c n i x).Heeds (l.watch st r) Q
        (.child i a false) := by
    intro a x ha hdue
    rw [heeds_bind]
    refine heeds_closeAll links ?_
    obtain e | ⟨⟨⟩⟩ := x
    · exact heeds_exit _ hdue
    · exact heeds_runInChild hc (ha rfl) _
  cases Link.before links i with
  | none =>
    rw [wireStage_none]
    exact houtput hafter
  | some k =>
    rw [wireStage_some, heeds_bind]
    refine heeds_ask.2 ⟨fun _ => rfl, fun x => ?_⟩
    cases x with
    | error e => exact hafter .failed _ nofun nofun
    | ok u => exact houtput hafter

theorem ignores_of_conduct {d : Syscall} (h : Conduct false d ∨ Plumbing d) (hf : d ≠ .fork)
    (hd : d.decides = false) : (l.watch st r).Ignores (.shell k) d := by
  obtain h | h := h
  all_goals
    cases d <;> first
      | exact ⟨trivial, fun _ => rfl⟩
      | exact absurd rfl hf
      | (cases h; done)
      | cases hd

theorem heeds_pushFork {b : JobBuilder} {Q : Standing → Except Errno (ForkSide × JobBuilder) → Prop}
    (he : ∀ e, Q (.shell k) (.error e)) (hc : Q (.child k .due false) (.ok (.child, b)))
    (hp : ∀ pid b, Q (.shell (k + 1)) (.ok (.parent pid, b))) :
    b.pushFork.Heeds (l.watch st r) Q (.shell k) := by
  unfold JobBuilder.pushFork
  rw [heeds_bind]
  refine heeds_ask.2 ⟨trivial, fun x => ?_⟩
  match x with
  | .error e => exact he e
  | .ok .child =>
    rw [heeds_bind]
    exact heeds_ask.2 ⟨trivial, fun _ => hc⟩
  | .ok (.parent pid) => exact hp pid _

section Shell

variable {p : Program α} {Q : Standing → α → Prop}

theorem heeds_of_conduct
    (h : p.Calls (fun _ d => (Conduct false d ∨ Plumbing d) ∧ d ≠ .fork ∧ d.decides = false)
      (fun _ _ => True) false)
    (hQ : ∀ a, Q (.shell k) a) : p.Heeds (l.watch st r) Q (.shell k) :=
  heeds_of_calls h (fun _ _ h => ignores_of_conduct h.1 h.2.1 h.2.2) fun _ a _ => hQ a

end Shell

theorem heeds_forkAndWait {child : Program Empty}
    (hc : child.Heeds (l.watch st r) (fun _ _ => True) (.child 0 .due false))
    {Q : Standing → UInt8 → Prop} (hQ : ∀ k n, Q (.shell k) n) :
    (forkAndWait child).Heeds (l.watch st r) Q (.shell 0) := by
  unfold forkAndWait
  rw [heeds_bind]
  refine heeds_pushFork (fun e => ?_) (heeds_never.2 hc) fun pid b => ?_
  · refine heeds_of_conduct ?_ (hQ 0)
    rw [calls_bind]
    exact calls_report (fun _ => ⟨.inl rfl, nofun, rfl⟩) trivial
  · refine heeds_of_conduct ?_ (hQ 1)
    rw [calls_bind]
    refine calls_jobWait (fun _ _ => ⟨.inl trivial, nofun, rfl⟩) fun (j, e) => ?_
    cases e with
    | none => trivial
    | some e =>
      rw [calls_bind]
      exact calls_report (fun _ => ⟨.inl rfl, nofun, rfl⟩) trivial

theorem heeds_spawnStages {links : List Link} (hl : links.length + 1 = l.stages)
    (hs : l.stages = l.commands.length) {Q : Standing → Except Errno Job → Prop}
    (hQ : ∀ k x, Q (.shell k) x) :
    (spawnStages st l.commands links (some r)).Heeds (l.watch st r) Q (.shell 0) := by
  have hgo : ∀ cs b i, l.commands.drop i = cs →
      (spawnStages.go st l.commands links (some r) b i cs).Heeds (l.watch st r) Q (.shell i) := by
    intro cs
    induction cs with
    | nil => exact fun b i _ => hQ i _
    | cons c cs ih =>
      intro b i hdrop
      have hc : l.commands[i]? = some c := by
        rw [← List.head?_drop, hdrop, List.head?_cons]
      have hi : i < l.stages := hs ▸ (List.getElem?_eq_some_iff.1 hc).1
      rw [spawnStages.go, heeds_bind]
      refine heeds_pushFork (fun e => ?_) (heeds_never.2 (heeds_stageChild hc hl hi))
        fun pid b => ih b (i + 1) ?_
      · refine heeds_of_conduct ?_ (hQ i)
        rw [JobBuilder.abandon, calls_bind]
        exact calls_terminateAll (fun _ _ => ⟨.inr trivial, by simp, rfl⟩) trivial
      · rw [← List.drop_drop, hdrop, List.drop_one, List.tail_cons]
  exact hgo _ _ 0 rfl

theorem heeds_openMany {n : Nat} {Q : Standing → Except Errno (List Link) × Unit → Prop}
    (he : ∀ e, Q (.shell k) (.error e, ()))
    (hQ : ∀ links, links.length = n → Q (.shell k) (.ok links, ())) :
    (Link.openMany Link.fresh () n).Heeds (l.watch st r) Q (.shell k) := by
  have hgo : ∀ n opened,
      (∀ links, links.length = opened.length + n → Q (.shell k) (.ok links, ())) →
      (Link.openMany.go Link.fresh opened () n).Heeds (l.watch st r) Q (.shell k) := by
    intro n
    induction n with
    | zero => exact fun opened hQ => hQ opened rfl
    | succ n ih =>
      intro opened hQ
      rw [Link.openMany.go, heeds_bind]
      unfold Link.fresh Link.create
      rw [heeds_bind, heeds_bind]
      refine heeds_ask.2 ⟨trivial, fun x => ?_⟩
      obtain e | ⟨a, b⟩ := x
      · show (Link.closeAll opened >>= fun _ => done (.error e, ())).Heeds _ Q (.shell k)
        rw [heeds_bind]
        exact heeds_of_conduct (calls_closeAll (fun _ => ⟨.inr trivial, by simp, rfl⟩) trivial)
          fun _ => he e
      · refine ih _ fun links hlinks => hQ links ?_
        rw [hlinks, List.length_append, List.length_singleton]
        omega
  exact hgo n [] (by simpa using hQ)

theorem heeds_runPipeline (hr : l.redirect = some r) (hp : l.hasPipes = true)
    {Q : Standing → UInt8 → Prop} (hQ : ∀ k n, Q (.shell k) n) :
    (runPipeline st l).Heeds (l.watch st r) Q (.shell 0) := by
  have hs : l.stages = l.commands.length := if_pos hp
  by_cases hl : l.commands = []
  · rw [runPipeline_eq, runPipelineWith, if_pos hl]
    exact hQ 0 _
  · have hpos := List.length_pos_iff.2 hl
    rw [runPipeline_eq, runPipelineWith_eq hl, heeds_bind]
    refine heeds_openMany (fun e => ?_) fun links hlinks => ?_
    · refine heeds_of_conduct ?_ (hQ 0)
      rw [calls_bind]
      exact calls_report (fun _ => ⟨.inl rfl, by simp, rfl⟩) trivial
    · show (runStages st l links).Heeds _ Q (.shell 0)
      rw [runStages, hr, heeds_bind]
      refine heeds_spawnStages (by omega) hs fun k x => heeds_of_conduct ?_ (hQ k)
      exact calls_conclude (fun _ => ⟨.inl trivial, by simp, rfl⟩) (fun _ => ⟨.inl rfl, by simp, rfl⟩)
        (fun _ => ⟨.inr trivial, by simp, rfl⟩) fun _ => trivial

theorem heeds_runLine (hr : l.redirect = some r) {Q : Standing → UInt8 → Prop}
    (hQ : ∀ k n, Q (.shell k) n) : (runLine st l).Heeds (l.watch st r) Q (.shell 0) := by
  unfold runLine
  split
  · exact heeds_runPipeline hr ‹_› hQ
  · rename_i hp
    have hs : l.stages = 1 := if_neg hp
    split
    · exact hQ 0 _
    · rename_i c _ r' hc hr'
      obtain rfl := Option.some.inj (hr.symm.trans hr')
      have hc : l.commands[0]? = some c := by rw [hc, List.getElem?_cons_zero]
      exact heeds_forkAndWait (heeds_redirectedChild hc hs) hQ
    · rename_i hr'
      rw [hr'] at hr
      cases hr

/-- However the evaluation of a line with a redirection goes, the target is opened as is said by
`Standing.permits`. -/
theorem heeds_eval (hr : l.redirect = some r) :
    (eval st l).Heeds (l.watch st r) (fun _ _ => True) (.shell 0) := by
  have hline : (evalLine st l).Heeds (l.watch st r) (fun _ _ => True) (.shell 0) := by
    unfold evalLine
    split
    · split
      · exact heeds_never.2 (heeds_ask.2 ⟨trivial, nofun⟩)
      · rename_i hr'
        rw [hr'] at hr
        cases hr
      · exact heeds_runLine hr fun _ _ => trivial
    · exact heeds_runLine hr fun _ _ => trivial
  unfold eval
  rw [heeds_bind]
  exact hline.mono fun _ _ _ => trivial

def standing (es : List Event) : Standing := es.foldl Standing.next (.shell 0)

def forked (es : List Event) : List Pid := es.filterMap fun
  | ⟨.fork, r⟩ => match (r : Except Errno ForkSide) with
    | .ok (.parent pid) => some pid
    | _ => none
  | _ => none

variable {es fs gs : List Event} {e : Event} {pid : Pid}

@[simp] theorem forked_append : forked (es ++ fs) = forked es ++ forked fs :=
  List.filterMap_append

theorem forked_append_fork :
    (forked (es ++ ⟨.fork, .ok (.parent pid)⟩ :: fs))[(forked es).length]? = some pid := by
  rw [forked_append, List.getElem?_append_right (Nat.le_refl _), Nat.sub_self]
  rfl

theorem eq_of_forked_getElem? {n : Nat} (h : (forked es)[n]? = some pid) :
    ∃ fs gs, es = fs ++ ⟨.fork, .ok (.parent pid)⟩ :: gs ∧ (forked fs).length = n := by
  induction es generalizing n with
  | nil => cases h
  | cons e es ih =>
    have hlater : forked [e] = [] → ∃ fs gs,
        e :: es = fs ++ ⟨.fork, .ok (.parent pid)⟩ :: gs ∧ (forked fs).length = n := by
      intro he
      rw [← List.singleton_append, forked_append, he, List.nil_append] at h
      obtain ⟨fs, gs, rfl, hn⟩ := ih h
      refine ⟨e :: fs, gs, rfl, ?_⟩
      rw [← List.singleton_append, forked_append, he, List.nil_append, hn]
    obtain ⟨c, x⟩ := e
    cases c with
    | fork =>
      obtain x | _ | new := x
      · exact hlater rfl
      · exact hlater rfl
      · have hfirst : forked (⟨.fork, .ok (.parent new)⟩ :: es) = new :: forked es := rfl
        rw [hfirst] at h
        cases n with
        | zero =>
          obtain rfl := Option.some.inj h
          exact ⟨[], es, rfl, rfl⟩
        | succ n =>
          obtain ⟨fs, gs, rfl, hn⟩ := ih h
          exact ⟨⟨.fork, .ok (.parent new)⟩ :: fs, gs, rfl, congrArg (· + 1) hn⟩
    | _ => exact hlater rfl

theorem standing_append : standing (es ++ fs) = fs.foldl Standing.next (standing es) :=
  List.foldl_append

@[simp] theorem standing_concat : standing (es ++ [e]) = (standing es).next e := standing_append

theorem TargetState.after_of_ne (h : a ≠ .due) (e : Event) : a.after e = a := by
  unfold after
  split
  · rfl
  · exact if_neg h

theorem foldl_next_child (i : Nat) (a : TargetState) (v : Bool) (fs : List Event) : ∃ a' v',
    fs.foldl Standing.next (.child i a v) = .child i a' v' ∧ (a ≠ .due → a' = a) ∧
      (v = true → v' = true) := by
  induction fs generalizing a v with
  | nil => exact ⟨a, v, rfl, fun _ => rfl, id⟩
  | cons e fs ih =>
    obtain ⟨a', v', hfs, ha, hv⟩ := ih (a.after e) (e.moves || v)
    refine ⟨a', v', hfs, fun hne => ?_, fun h => hv (by rw [h, Bool.or_true])⟩
    have he := TargetState.after_of_ne hne e
    rw [he] at ha
    exact ha hne

theorem foldl_next_shell (ho : Own es) (k : Nat) :
    es.foldl Standing.next (.shell k) = .shell (k + (forked es).length) := by
  induction es generalizing k with
  | nil => rfl
  | cons e es ih =>
    obtain ⟨he, hes⟩ := own_cons.1 ho
    rw [List.foldl_cons, ← List.singleton_append, forked_append, List.length_append]
    obtain ⟨c, x⟩ := e
    cases c with
    | fork =>
      obtain x | _ | new := x
      · exact (ih hes k).trans (congrArg _ (by simp [forked]))
      · cases he
      · exact (ih hes (k + 1)).trans (congrArg _ (Nat.add_assoc k 1 _))
    | _ => exact (ih hes k).trans (congrArg _ (by simp [forked]))

theorem standing_of_own (ho : Own es) : standing es = .shell (forked es).length := by
  rw [standing, foldl_next_shell ho, Nat.zero_add]

theorem standing_of_birth (ho : Own es) (gs : List Event) :
    ∃ a v, standing (es ++ birth :: gs) = .child (forked es).length a v := by
  obtain ⟨a, v, h, -⟩ := foldl_next_child (forked es).length .due false gs
  exact ⟨a, v, by rw [standing_append, standing_of_own ho]; exact h⟩

theorem own_or_exists_birth (es : List Event) :
    Own es ∨ ∃ fs gs, es = fs ++ birth :: gs ∧ Own fs := by
  induction es with
  | nil => exact .inl own_nil
  | cons e es ih =>
    cases he : e.isBirth with
    | true =>
      obtain rfl : e = birth := by
        obtain ⟨c, x⟩ := e
        cases c with
        | fork => obtain x | _ | new := x <;> first | rfl | cases he
        | _ => cases he
      exact .inr ⟨[], es, rfl, own_nil⟩
    | false =>
      obtain ho | ⟨fs, gs, rfl, ho⟩ := ih
      · exact .inl (own_cons.2 ⟨he, ho⟩)
      · exact .inr ⟨e :: fs, gs, rfl, own_cons.2 ⟨he, ho⟩⟩

theorem eq_of_standing (h : standing es = .child i a v) :
    ∃ fs gs, es = fs ++ birth :: gs ∧ Own fs ∧ (forked fs).length = i := by
  obtain ho | ⟨fs, gs, rfl, ho⟩ := own_or_exists_birth es
  · rw [standing_of_own ho] at h
    cases h
  · obtain ⟨a', v', h'⟩ := standing_of_birth ho gs
    rw [h] at h'
    cases h'
    exact ⟨fs, gs, rfl, ho, rfl⟩

theorem exists_settles {x : Standing} (h : es.foldl Standing.next x = .child i a v)
    (ha : a ≠ .due) : (∃ j w, x = .child j a w) ∨ ∃ e ∈ es, e.settles = some a := by
  induction es generalizing x with
  | nil => exact .inl ⟨i, v, h⟩
  | cons e es ih =>
    obtain ⟨j, w, hx⟩ | ⟨e', hm, he'⟩ := ih h
    · cases x with
      | shell k =>
        exfalso
        obtain ⟨d, y⟩ := e
        cases d with
        | fork =>
          obtain y | _ | new := y
          · cases hx
          · cases hx
            exact ha rfl
          · cases hx
        | _ => cases hx
      | child j' a' w' =>
        obtain ⟨rfl, hafter, -⟩ : j' = j ∧ a'.after e = a ∧ (e.moves || w') = w := by
          injection hx with h₁ h₂ h₃
          exact ⟨h₁, h₂, h₃⟩
        unfold TargetState.after at hafter
        split at hafter
        · exact .inl ⟨j', w', hafter ▸ rfl⟩
        · split at hafter
          · exact .inr ⟨e, List.mem_cons_self, hafter ▸ ‹_›⟩
          · exact .inl ⟨j', w', hafter ▸ rfl⟩
    · exact .inr ⟨e', List.mem_cons_of_mem _ hm, he'⟩

theorem exists_settles_of_standing (h : standing es = .child i a v) (ha : a ≠ .due) :
    ∃ e ∈ es, e.settles = some a := by
  obtain ⟨j, w, hx⟩ | h := exists_settles h ha
  · cases hx
  · exact h

section Evaluation

variable {q : Program (UInt8 × State)}

theorem permits_of_reaches_eval (hr : l.redirect = some r) {d : Syscall} {again : d.Reply → Bool}
    {k : d.Reply → Program (UInt8 × State)} (h : (eval st l).Reaches es (call d again k)) :
    (standing es).permits st l r d := (heeds_eval hr).permits_of_reaches h

theorem own_of_birth (hr : l.redirect = some r) (ho : Own fs)
    (h : (eval st l).Reaches (fs ++ birth :: gs) q) : Own gs := by
  refine own_of_not_fork fun e he hfork => ?_
  obtain ⟨gs, gs', rfl⟩ := List.append_of_mem he
  rw [← List.cons_append, ← List.append_assoc] at h
  have hp : (standing (fs ++ birth :: gs)).permits st l r e.call :=
    (heeds_eval hr).permits_of_append h
  obtain ⟨o, v, hs⟩ := standing_of_birth ho gs
  rw [hs, hfork] at hp
  exact hp

theorem not_chdir_of_standing (hr : l.redirect = some r) (h : (eval st l).Reaches es q)
    (hs : standing es = .child i a false) (path : Bytes) :
    (⟨.chdir path, .ok ()⟩ : Event) ∉ es := by
  intro hm
  obtain ⟨fs, gs, rfl⟩ := List.append_of_mem hm
  have hp : (standing fs).permits st l r (.chdir path) := (heeds_eval hr).permits_of_append h
  cases hfs : standing fs with
  | shell k =>
    rw [hfs] at hp
    exact hp
  | child j a' v' =>
    rw [standing_append, hfs, List.foldl_cons] at hs
    obtain ⟨a₂, v₂, hgs, -, hv⟩ := foldl_next_child j a' true gs
    have hnext : gs.foldl Standing.next (.child j a' true) = .child i a false := hs
    rw [hgs] at hnext
    obtain rfl : v₂ = false := by injection hnext
    cases hv rfl

theorem permits_of_mem_child (hr : l.redirect = some r) (h : (eval st l).Reaches es q) {e : Event}
    (he : e ∈ es) (hs : standing es = .child i a v) :
    (∃ k, Standing.permits st l r (.shell k) e.call) ∨ ∃ a' v',
      Standing.permits st l r (.child i a' v') e.call ∧ (a'.after e ≠ .due → a = a'.after e) := by
  obtain ⟨fs, gs, rfl⟩ := List.append_of_mem he
  have hp : (standing fs).permits st l r e.call := (heeds_eval hr).permits_of_append h
  cases hfs : standing fs with
  | shell k => exact .inl ⟨k, hfs ▸ hp⟩
  | child j a' v' =>
    rw [standing_append, hfs, List.foldl_cons] at hs
    obtain ⟨a₂, v₂, hgs, ha, -⟩ := foldl_next_child j (a'.after e) (e.moves || v') gs
    have hnext : gs.foldl Standing.next (.child j (a'.after e) (e.moves || v')) = .child i a v := hs
    rw [hgs] at hnext
    obtain ⟨rfl, rfl, -⟩ : j = i ∧ a₂ = a ∧ v₂ = v := by
      injection hnext with h₁ h₂ h₃
      exact ⟨h₁, h₂, h₃⟩
    exact .inr ⟨a', v', hfs ▸ hp, ha⟩

theorem due_of_settles {e : Event} {b : TargetState} {x : Standing} (hb : e.settles = some b)
    (hp : x.permits st l r e.call) : ∃ i v, x = .child i .due v := by
  obtain ⟨c, y⟩ := e
  cases c with
  | openFile path mode =>
    cases mode with
    | create mode =>
      cases x with
      | shell k => exact hp.elim
      | child i a v =>
        obtain ⟨-, -, rfl, -⟩ := hp
        exact ⟨i, v, rfl⟩
    | _ => cases hb
  | dup2 fd target =>
    by_cases ht : target = Fd.stdin
    · cases x with
      | shell k => exact hp.elim
      | child i a v =>
        obtain rfl := hp ht
        exact ⟨i, v, rfl⟩
    · simp [Event.settles, ht] at hb
  | _ => cases hb

theorem settles_of_mem (hr : l.redirect = some r) (h : (eval st l).Reaches es q) {e : Event}
    (he : e ∈ es) {b : TargetState} (hb : e.settles = some b) (hne : b ≠ .due)
    (hs : standing es = .child i a v) : a = b := by
  obtain ⟨k, hp⟩ | ⟨a', v', hp, ha⟩ := permits_of_mem_child hr h he hs
  · obtain ⟨i, v, hx⟩ := due_of_settles hb hp
    cases hx
  · obtain ⟨i, v, hx⟩ := due_of_settles hb hp
    cases hx
    have hafter : TargetState.due.after e = b := by rw [TargetState.after, hb]; rfl
    rw [hafter] at ha
    exact ha hne

end Evaluation

end PipeShell
