import PipeShell.Proofs.Shell.Intact

/-! The descriptors of a stage. A stage duplicates its ends of the links and closes all links; what
its command does after that, up to becoming a program, puts no descriptor that it has from the shell
in another place. Main statements: where its input and output come from when its wiring has
succeeded (`streams_of_wireStage`), and where it can have ends of links once it has been wired in
any way (`placed_of_wired`). -/
namespace PipeShell

open Program

def Link.before (links : List Link) (i : Nat) : Option Link := if i = 0 then none else links[i - 1]?

/-- Opens a file in the place of `target`. -/
def openAt (path : Bytes) (mode : OpenMode) (target : Fd) : Program (Except SetupError Unit) :=
  openPath path mode >>= fun x => match x with
    | .error e => done (.error (.file e))
    | .ok fd => rebind fd target

theorem silenceStderr_eq (sink : Bytes) : silenceStderr sink = openAt sink .write Fd.stderr := rfl

variable {L : Layout} {es : List Event}

section Places

variable {α β : Type} {p : Program α} {f : α → Program β}

/-- Whether `p`, however far it comes, leaves what is inherited in its place. -/
def Program.KeepsPlaces (p : Program α) : Prop :=
  ∀ (L : Layout) es q, p.Reaches es q → L.Keeps (L.after es)

theorem keepsPlaces_done (a : α) : (done a).KeepsPlaces := by
  intro L es q h
  obtain ⟨rfl, -⟩ := reaches_done_iff.1 h
  exact .refl L

theorem Program.KeepsPlaces.bind (hp : p.KeepsPlaces) (hf : ∀ a, (f a).KeepsPlaces) :
    (p >>= f).KeepsPlaces := by
  intro L es q h
  obtain ⟨p', h₁, -⟩ | ⟨a, es₁, es₂, rfl, h₁, h₂⟩ := reaches_bind_iff.1 h
  · exact hp L es p' h₁
  · rw [Layout.after_append]
    exact (hp L es₁ _ h₁).trans (hf a _ es₂ q h₂)

theorem keepsPlaces_of_calls {b : Bool} {Q : Bool → α → Prop}
    (hp : p.Calls (fun _ c => ∀ x y, c ≠ .dup2 x y) Q b) : p.KeepsPlaces := by
  intro L es q h
  have hes := (hp.of_reaches h).1.imp fun _ _ h => h
  exact Layout.keeps_after fun x y hm => hes _ hm x y rfl

theorem keeps_of_reaches_rebind {fd target : Fd} {q : Program (Except SetupError Unit)}
    (hL : ∀ g b, L fd ≠ some ⟨.inherited g, b⟩) (h : (rebind fd target).Reaches es q) :
    L.Keeps (L.after es) := by
  have hdup : ∀ r : Except Errno Unit, L.Keeps (L.read ⟨.dup2 fd target, r⟩) := by
    rintro (e | ⟨⟨⟩⟩)
    · exact .refl L
    · simp only [Layout.read]
      split
      · exact .refl L
      · refine Layout.keeps_update target fun g b hx => ?_
        obtain ⟨⟨origin, d⟩, hx, hs⟩ := Option.map_eq_some_iff.1 hx
        obtain ⟨rfl, -⟩ := Slot.mk.inj hs
        exact hL g d hx
  rw [rebind] at h
  obtain ⟨p, h, -⟩ | ⟨r, es₁, es₂, rfl, h₁, h₂⟩ := reaches_bind_iff.1 h
  · obtain ⟨rfl, -⟩ | ⟨r, rfl, -⟩ := reaches_ask_iff.1 h
    · exact .refl L
    · exact hdup r
  · obtain rfl := returns_dup2_iff.1 h₁
    refine (hdup r).trans (keepsPlaces_of_calls (b := true) (Q := fun _ _ => True) ?_ _ es₂ q h₂)
    split
    · trivial
    · rw [calls_bind, calls_close]
      refine ⟨fun x y he => (by cases he), fun r => ?_⟩
      split <;> trivial

theorem returns_openPath_ok {path : Bytes} {mode : OpenMode} {fd : Fd}
    (h : (openPath path mode).Returns es (.ok fd)) : ∃ n, es =
      List.replicate n ⟨.openFile path mode, .error Errno.interrupted⟩ ++
        [⟨.openFile path mode, .ok fd⟩] := by
  unfold openPath at h
  split at h
  · cases (returns_done_iff.1 h).2
  · obtain ⟨r, es₁, es₂, rfl, h₁, h₂⟩ := returns_bind_iff.1 h
    obtain ⟨-, n, rfl⟩ := returns_openFile_iff.1 h₁
    match r with
    | .ok k =>
      obtain ⟨rfl, hk⟩ := returns_done_iff.1 h₂
      obtain rfl := Except.ok.inj hk
      exact ⟨n, List.append_nil _⟩
    | .error e => cases (returns_done_iff.1 h₂).2

theorem keepsPlaces_openAt (path : Bytes) (mode : OpenMode) (target : Fd) :
    (openAt path mode target).KeepsPlaces := by
  intro L es q h
  have hopen : (openPath path mode).KeepsPlaces := by
    refine keepsPlaces_of_calls (b := true) (Q := fun _ _ => True) ?_
    unfold openPath
    split
    · trivial
    · rw [calls_bind, calls_openFile]
      refine ⟨nofun, fun r _ => ?_⟩
      split <;> trivial
  obtain ⟨p, h, -⟩ | ⟨x, es₁, es₂, rfl, h₁, h₂⟩ := reaches_bind_iff.1 h
  · exact hopen L es p h
  · rw [Layout.after_append]
    refine (hopen L es₁ _ h₁).trans ?_
    cases x with
    | error e => exact keepsPlaces_done _ _ es₂ q h₂
    | ok fd =>
      obtain ⟨n, rfl⟩ := returns_openPath_ok h₁
      refine keeps_of_reaches_rebind ?_ h₂
      simp [Layout.read]

theorem keepsPlaces_runInChild (c : Command) (s : State) (isTerminal : Bool) :
    (c.runInChild s isTerminal).KeepsPlaces := by
  by_cases hc : c.builtin? = none
  · rw [runInChild_external hc, silenceStderr_eq]
    refine (keepsPlaces_openAt _ _ _).bind fun x => ?_
    exact keepsPlaces_of_calls (b := true) (Q := fun _ _ => True)
      (calls_afterSilence (fun _ _ _ => nofun) nofun nofun)
  refine keepsPlaces_of_calls (b := true) (Q := fun _ _ => True) ?_
  unfold Command.runInChild
  split
  · have hleave : (Builtin.leave c.arguments).Calls (fun _ c => ∀ x y, c ≠ .dup2 x y)
        (fun _ _ => True) true := calls_exit.2 nofun
    split
    · exact hleave
    · rw [calls_bind, calls_close]
      exact ⟨nofun, fun _ => hleave⟩
  · rw [calls_bind]
    exact calls_changeDirectory nofun fun n => calls_exit.2 nofun
  · exact absurd ‹_› hc

end Places

section Wires

variable {before after : Option Link} {r : Option Redirect} {x : Except SetupError Unit}
  {O : Fd → Prop}

theorem returns_dup2_cases {fd target : Fd}
    (h : (do
      match ← dup2 fd target with
      | .error e => return .error (.system e)
      | .ok () => return .ok () : Program (Except SetupError Unit)).Returns es x) :
    (∃ e, es = [⟨.dup2 fd target, .error e⟩] ∧ x = .error (.system e)) ∨
      es = [⟨.dup2 fd target, .ok ()⟩] ∧ x = .ok () := by
  obtain ⟨y, es₁, es₂, rfl, h₁, h₂⟩ := returns_bind_iff.1 h
  obtain rfl := returns_dup2_iff.1 h₁
  match y with
  | .error e =>
    obtain ⟨rfl, rfl⟩ := returns_done_iff.1 h₂
    exact .inl ⟨e, rfl, rfl⟩
  | .ok () =>
    obtain ⟨rfl, rfl⟩ := returns_done_iff.1 h₂
    exact .inr ⟨rfl, rfl⟩

def Layout.fed : Option Link → Layout
  | some l => Function.update initial Fd.stdin (some ⟨.inherited l.readEnd, true⟩)
  | none => initial

theorem returns_wireStage (h : (wireStage before after r).Returns es x)
    (h₀ : ∀ l, before = some l → l.readEnd ≠ Fd.stdin) :
    (∃ e, x = .error e ∧ Layout.initial.after es = Layout.initial) ∨
      ∃ es₁ es₂, es = es₁ ++ es₂ ∧ Layout.initial.after es₁ = Layout.fed before ∧
        (wireOutput after r).Returns es₂ x := by
  cases before with
  | none => exact .inr ⟨[], es, rfl, rfl, h⟩
  | some l =>
    rw [wireStage_some, returns_bind_iff] at h
    obtain ⟨y, es₁, es₂, rfl, h₁, h₂⟩ := h
    obtain rfl := returns_dup2_iff.1 h₁
    match y with
    | .error e =>
      obtain ⟨rfl, rfl⟩ := returns_done_iff.1 h₂
      exact .inl ⟨_, rfl, rfl⟩
    | .ok () =>
      refine .inr ⟨_, es₂, rfl, ?_, h₂⟩
      simp [Layout.read, Layout.fed, h₀ l rfl, Layout.initial, Slot.duplicate]

/-- Where a stage has its descriptors from once it is wired, its ends of the links in place of its
input and output. -/
def Layout.Placed (before after : Option Link) (L : Layout) : Prop :=
  ∀ fd g b, L fd = some ⟨.inherited g, b⟩ → g = fd ∨
    (fd = Fd.stdin ∧ ∃ l, before = some l ∧ g = l.readEnd) ∨
    (fd = Fd.stdout ∧ ∃ l, after = some l ∧ g = l.writeEnd)

theorem Layout.Placed.keeps {L' : Layout} (h : L.Placed before after) (hL : L.Keeps L') :
    L'.Placed before after := fun fd g b hg => h fd g b (hL fd g b hg)

theorem placed_initial : Layout.initial.Placed before after :=
  fun _ _ _ h => .inl (Layout.eq_of_initial h)

theorem placed_fed : (Layout.fed before).Placed before after := by
  cases before with
  | none => exact placed_initial
  | some l =>
    intro fd g b h
    rw [Layout.fed, Function.update_apply] at h
    split at h
    · injection h with h
      injection h with h
      injection h with h
      exact .inr (.inl ⟨‹_›, l, rfl, h.symm⟩)
    · exact placed_initial fd g b h

theorem fed_of_ne {fd : Fd} (h : fd ≠ Fd.stdin) :
    Layout.fed before fd = some ⟨.inherited fd, false⟩ := by
  cases before with
  | none => rfl
  | some l => exact Function.update_of_ne h _ _

theorem read_output {l : Link} (h : l.writeEnd ≠ Fd.stdin) (h' : l.writeEnd ≠ Fd.stdout) :
    (Layout.fed before).read ⟨.dup2 l.writeEnd Fd.stdout, .ok ()⟩ =
      Function.update (Layout.fed before) Fd.stdout (some ⟨.inherited l.writeEnd, true⟩) := by
  simp [Layout.read, h', fed_of_ne h, Slot.duplicate]

theorem placed_output {l : Link} (h : l.writeEnd ≠ Fd.stdin) (h' : l.writeEnd ≠ Fd.stdout) :
    ((Layout.fed before).read ⟨.dup2 l.writeEnd Fd.stdout, .ok ()⟩).Placed before (some l) := by
  rw [read_output h h']
  intro fd g b hx
  rw [Function.update_apply] at hx
  split at hx
  · injection hx with hx
    injection hx with hx
    injection hx with hx
    exact .inr (.inr ⟨‹_›, l, rfl, hx.symm⟩)
  · exact placed_fed fd g b hx

theorem placed_of_wireStage (h : (wireStage before after r).Returns es x)
    (h₀ : ∀ l, before = some l → l.readEnd ≠ Fd.stdin)
    (h₁ : ∀ l, after = some l → l.writeEnd ≠ Fd.stdin ∧ l.writeEnd ≠ Fd.stdout) :
    (Layout.initial.after es).Placed before after := by
  obtain ⟨e, -, hL⟩ | ⟨es₁, es₂, rfl, hL, hout⟩ := returns_wireStage h h₀
  · rw [hL]
    exact placed_initial
  · rw [Layout.after_append, hL]
    cases after with
    | some l =>
      obtain ⟨e, rfl, -⟩ | ⟨rfl, -⟩ := returns_dup2_cases hout
      · exact placed_fed
      · exact placed_output (h₁ l rfl).1 (h₁ l rfl).2
    | none =>
      cases r with
      | some r => exact placed_fed.keeps (keepsPlaces_openAt _ _ _ _ _ _ hout)
      | none =>
        obtain ⟨rfl, -⟩ := returns_done_iff.1 hout
        exact placed_fed

theorem returns_openAt_ok {path : Bytes} {mode : OpenMode} {target : Fd}
    (h : (openAt path mode target).Returns es (.ok ())) : ∃ n fd, es =
      List.replicate n ⟨.openFile path mode, .error Errno.interrupted⟩ ++
        [⟨.openFile path mode, .ok fd⟩, ⟨.dup2 fd target, .ok ()⟩, ⟨.close fd, .ok ()⟩] := by
  obtain ⟨x, es₁, es₂, rfl, h₁, h₂⟩ := returns_bind_iff.1 h
  cases x with
  | error e => cases (returns_done_iff.1 h₂).2
  | ok fd =>
    obtain ⟨n, rfl⟩ := returns_openPath_ok h₁
    obtain ⟨y, fs₁, fs₂, rfl, hdup, h₃⟩ := returns_bind_iff.1 h₂
    obtain rfl := returns_dup2_iff.1 hdup
    match y with
    | .error e => cases (returns_done_iff.1 h₃).2
    | .ok () =>
      obtain ⟨z, gs₁, gs₂, rfl, hclose, h₄⟩ := returns_bind_iff.1 h₃
      obtain rfl := returns_close_iff.1 hclose
      match z with
      | .error e => cases (returns_done_iff.1 h₄).2
      | .ok () =>
        obtain ⟨rfl, -⟩ := returns_done_iff.1 h₄
        exact ⟨n, fd, List.append_assoc ..⟩

theorem returns_wireStage_target {r : Redirect}
    (h : (wireStage before none (some r)).Returns es (.ok ())) : ∃ fs fd,
      es = fs ++ [⟨.openFile r.target (.create r.mode), .ok fd⟩, ⟨.dup2 fd Fd.stdout, .ok ()⟩,
        ⟨.close fd, .ok ()⟩] ∧ ∀ e ∈ fs, ∀ path, e.call ≠ .chdir path := by
  obtain ⟨es₁, es₂, rfl, hes₁, hout⟩ : ∃ es₁ es₂, es = es₁ ++ es₂ ∧
      (∀ e ∈ es₁, ∀ path, e.call ≠ .chdir path) ∧
      (wireOutput none (some r)).Returns es₂ (.ok ()) := by
    cases before with
    | none => exact ⟨[], es, rfl, by simp, h⟩
    | some l =>
      rw [wireStage_some, returns_bind_iff] at h
      obtain ⟨y, es₁, es₂, rfl, h₁, h₂⟩ := h
      obtain rfl := returns_dup2_iff.1 h₁
      match y with
      | .error e => cases (returns_done_iff.1 h₂).2
      | .ok () => exact ⟨_, es₂, rfl, by simp, h₂⟩
  obtain ⟨n, fd, rfl⟩ := returns_openAt_ok hout
  refine ⟨es₁ ++ List.replicate n _, fd, (List.append_assoc ..).symm, fun e he => ?_⟩
  obtain he | he := List.mem_append.1 he
  · exact hes₁ e he
  · rw [List.eq_of_mem_replicate he]
    simp

def Layout.output : Option Link → Option Redirect → Slot
  | some l, _ => ⟨.inherited l.writeEnd, true⟩
  | none, some r => ⟨.opened r.target (.create r.mode), true⟩
  | none, none => ⟨.inherited Fd.stdout, false⟩

theorem not_free_of_inherited {fd g : Fd} {b : Bool} (h : L fd = some ⟨.inherited g, b⟩)
    (ho : O g) : ¬L.Free O fd := by
  intro hf
  obtain ⟨k, hk, hn⟩ := hf _ h
  obtain rfl : g = k := Origin.inherited.inj hk
  exact hn ho

theorem streams_of_wireStage (h : (wireStage before after r).Returns es (.ok ()))
    (hf : Layout.initial.Fresh O es) (ho : O Fd.stdin ∧ O Fd.stdout)
    (h₀ : ∀ l, before = some l → l.readEnd ≠ Fd.stdin ∧ O l.readEnd)
    (h₁ : ∀ l, after = some l → l.writeEnd ≠ Fd.stdin ∧ l.writeEnd ≠ Fd.stdout) :
    Layout.initial.after es Fd.stdin = Layout.fed before Fd.stdin ∧
      Layout.initial.after es Fd.stdout = some (Layout.output after r) := by
  obtain ⟨e, hx, -⟩ | ⟨es₁, es₂, rfl, hL, hout⟩ := returns_wireStage h fun l hl => (h₀ l hl).1
  · cases hx
  · have hf := (Layout.fresh_append.1 hf).2
    rw [Layout.after_append]
    rw [hL] at hf ⊢
    have hstdout : Layout.fed before Fd.stdout = some ⟨.inherited Fd.stdout, false⟩ :=
      fed_of_ne (by decide)
    cases after with
    | some l =>
      obtain ⟨e, -, hx⟩ | ⟨rfl, -⟩ := returns_dup2_cases hout
      · cases hx
      · rw [Layout.after_cons, Layout.after_nil, read_output (h₁ l rfl).1 (h₁ l rfl).2]
        exact ⟨Function.update_of_ne (by decide) _ _, Function.update_self _ _ _⟩
    | none =>
      cases r with
      | some r =>
        obtain ⟨n, fd, rfl⟩ := returns_openAt_ok hout
        -- the target is opened at none of the two
        rw [Layout.fresh_append, Layout.after_replicate_openFile] at hf
        have hfree : (Layout.fed before).Free O fd := hf.2.1
        have hne : fd ≠ Fd.stdout := by
          rintro rfl
          exact not_free_of_inherited hstdout ho.2 hfree
        have hne' : fd ≠ Fd.stdin := by
          rintro rfl
          cases before with
          | none => exact not_free_of_inherited rfl ho.1 hfree
          | some l => exact not_free_of_inherited rfl (h₀ l rfl).2 hfree
        simp [Layout.read, hne, hne.symm, hne'.symm, Slot.duplicate, Layout.output]
      | none =>
        obtain ⟨rfl, -⟩ := returns_done_iff.1 hout
        exact ⟨rfl, hstdout⟩

end Wires

section Stages

variable {s : State} {l : CommandLine} {links : List Link} {ρ : Type} {rest : UInt8 → Program ρ}

theorem child_of_reaches_spawnStages {all : List Command} {r : Option Redirect} {b : JobBuilder}
    {i : Nat} {cs : List Command} {q : Program (Except Errno Job)}
    (h : (spawnStages.go s all links r b i cs).Reaches es q) (hc : inChild es = true) :
    ∃ pids gs, pids.length < cs.length ∧ es = forks pids ++ birth :: gs := by
  obtain ⟨pids, fs, rfl, hcases⟩ := reaches_spawnStages_cases s links r h
  rw [inChild_append, inChild_eq_false_iff.2 (own_forks pids), Bool.false_or] at hc
  obtain ⟨-, rfl, -⟩ | ⟨-, rfl, -⟩ | ⟨-, e, gs, rfl, ho⟩ | ⟨hlt, gs, z, rfl, -⟩ := hcases
  · cases hc
  · cases hc
  · rw [inChild_cons, inChild_eq_false_iff.2 ho] at hc
    cases hc
  · exact ⟨pids, gs, hlt, rfl⟩

theorem stage_or_returned {q : Program ρ} (h : (runStages s l links >>= rest).Reaches es q)
    (hc : inChild es = true) :
    (∃ pids gs, pids.length < l.commands.length ∧ es = forks pids ++ birth :: gs) ∨
      ∃ es₁ es₂ status, es = es₁ ++ es₂ ∧ (runStages s l links).Returns es₁ status := by
  obtain ⟨p, h₁, -⟩ | ⟨status, es₁, es₂, rfl, h₁, -⟩ := reaches_bind_iff.1 h
  · refine .inl ?_
    obtain ⟨p', h₂, -⟩ | ⟨x, es₁, es₂, rfl, h₂, h₃⟩ := reaches_bind_iff.1 h₁
    · exact child_of_reaches_spawnStages h₂ hc
    · have hspawn : (spawnStages s l.commands links l.redirect).Calls (fun _ _ => True) InShell
          false := calls_spawnStages (fun _ _ _ => trivial) fun _ _ => trivial
      have hconclude : (conclude l links x).Calls (fun _ c => c ≠ .fork) (fun _ _ => True) false :=
        calls_conclude (fun _ => nofun) (fun _ => nofun) (fun _ => nofun) fun _ => trivial
      have hes₁ : inChild es₁ = false := (hspawn.of_reaches h₂).2
      have hes₂ := own_of_not_fork ((hconclude.of_reaches h₃).1.imp fun _ _ h => h)
      rw [inChild_append, hes₁, inChild_eq_false_iff.2 hes₂] at hc
      cases hc
  · exact .inr ⟨es₁, es₂, status, rfl, h₁⟩

def afterWiring (s : State) (c : Command) (n i : Nat) : Except SetupError Unit → Program Empty
  | .error _ => exit 1
  | .ok () => c.runInChild s (i + 1 == n)

theorem stageChild_eq (s : State) (links : List Link) (r : Option Redirect) (n i : Nat)
    (c : Command) : stageChild s links r n i c =
      wireStage (Link.before links i) links[i]? r >>= fun x =>
        Link.closeAll links >>= fun _ => afterWiring s c n i x := by
  unfold stageChild
  refine congrArg _ (funext fun x => congrArg _ (funext fun _ => ?_))
  cases x <;> rfl

theorem reaches_stageChild {c : Command} {n i : Nat} {r : Option Redirect} {fs : List Event}
    {x : Except SetupError Unit}
    (hw : (wireStage (Link.before links i) links[i]? r).Returns es x)
    (hc : (Link.closeAll links).Returns fs ()) :
    (stageChild s links r n i c).Reaches (es ++ fs) (afterWiring s c n i x) := by
  rw [stageChild_eq]
  exact (hw.bind _).trans (hc.bind fun _ => afterWiring s c n i x)

/-- The events up to the start of the command of stage `i`. -/
def wired (pids : List Pid) (es fs : List Event) : List Event :=
  forks pids ++ birth :: ⟨.defaultBrokenPipe, ()⟩ :: (es ++ fs)

def stage (s : State) (l : CommandLine) (links : List Link) (i : Nat) (c : Command) :
    Program Empty :=
  defaultBrokenPipe >>= fun _ => stageChild s links l.redirect l.commands.length i c

theorem reaches_stage {pids : List Pid} (hlt : pids.length < l.commands.length) :
    (runStages s l links >>= rest).Reaches (forks pids ++ [birth])
      (never (stage s l links pids.length l.commands[pids.length])) := by
  have hforks := reaches_forks s links l.redirect l.commands pids
    (JobBuilder.ofSize l.commands.length) 0 l.commands (Nat.le_of_lt hlt)
  rw [List.drop_eq_getElem_cons hlt, Nat.zero_add] at hforks
  have hbirth : ∀ b cs, (spawnStages.go s l.commands links l.redirect b pids.length
      (l.commands[pids.length] :: cs)).Reaches [birth]
      (never (stage s l links pids.length l.commands[pids.length])) :=
    fun b cs => .next rfl (.refl _)
  have h := ((hforks.trans (hbirth _ _)).bind (conclude l links)).bind rest
  rw [never_bind, never_bind] at h
  exact h

theorem reaches_wired {pids : List Pid} {fs : List Event} {x : Except SetupError Unit}
    (hlt : pids.length < l.commands.length)
    (hw : (wireStage (Link.before links pids.length) links[pids.length]? l.redirect).Returns es x)
    (hc : (Link.closeAll links).Returns fs ()) :
    (runStages s l links >>= rest).Reaches (wired pids es fs)
      (never (afterWiring s l.commands[pids.length] l.commands.length pids.length x)) := by
  have hstage : (stage s l links pids.length l.commands[pids.length]).Reaches
      (⟨.defaultBrokenPipe, ()⟩ :: (es ++ fs))
      (afterWiring s l.commands[pids.length] l.commands.length pids.length x) :=
    .next rfl (reaches_stageChild hw hc)
  have hstart : (runStages s l links >>= rest).Reaches (forks pids ++ [birth]) _ :=
    reaches_stage hlt
  have h := hstart.trans (hstage.bind _)
  rw [List.append_assoc] at h
  exact h

theorem own_of_reaches_stage {pids : List Pid} {gs : List Event} {q : Program ρ}
    (hlt : pids.length < l.commands.length)
    (h : (runStages s l links >>= rest).Reaches (forks pids ++ birth :: gs) q) : Own gs := by
  rw [List.append_cons] at h
  obtain ⟨p, h₁, h₂⟩ := h.of_append
  obtain rfl := h₁.unique (reaches_stage hlt)
  have hcalls : (never (stage s l links pids.length l.commands[pids.length]) : Program ρ).Calls
      (fun b c => b = true → c ≠ .fork) (fun _ _ => True) true := by
    rw [calls_never, stage, calls_bind, calls_defaultBrokenPipe]
    refine ⟨fun _ => nofun, calls_stageChild ?_⟩
    rintro b c hc rfl rfl
    cases hc
  exact own_of_not_fork fun e he => (hcalls.of_reaches h₂).1.of_child e he rfl

theorem keepsPlaces_afterWiring (s : State) (c : Command) (n i : Nat)
    (x : Except SetupError Unit) : (afterWiring s c n i x).KeepsPlaces := by
  cases x with
  | error e =>
    exact keepsPlaces_of_calls (b := true) (Q := fun _ _ => True) (calls_exit.2 nofun)
  | ok u => exact keepsPlaces_runInChild c s (i + 1 == n)

theorem after_forks (pids : List Pid) : L.after (forks pids) = L := by
  refine Layout.after_of_not_moves fun e he => ?_
  obtain ⟨pid, -, rfl⟩ := List.mem_map.1 he
  rfl

theorem layout_wired (pids : List Pid) (es fs : List Event) :
    layout (wired pids es fs) = (Layout.initial.after es).after fs := by
  rw [layout, wired, Layout.after_append, after_forks]
  exact Layout.after_append

theorem fresh_of_wired {O : Fd → Prop} {pids : List Pid} {fs : List Event}
    (h : Layout.initial.Fresh O (wired pids es fs)) : Layout.initial.Fresh O es := by
  have hstage := (Layout.fresh_append.1 h).2
  rw [after_forks] at hstage
  have hwiring : Layout.initial.Fresh O (es ++ fs) := hstage.2.2
  exact (Layout.fresh_append.1 hwiring).1

variable {i : Nat} {r : Option Redirect} {x : Except SetupError Unit} {fs gs : List Event}

theorem mem_ends_of_before {k : Link} (h : Link.before links i = some k) :
    k.readEnd ∈ Link.ends links := by
  unfold Link.before at h
  split at h
  · cases h
  · exact List.mem_flatMap.2 ⟨k, List.mem_of_getElem? h, by simp⟩

theorem mem_ends_of_getElem? {k : Link} (h : links[i]? = some k) :
    k.readEnd ∈ Link.ends links ∧ k.writeEnd ∈ Link.ends links :=
  ⟨List.mem_flatMap.2 ⟨k, List.mem_of_getElem? h, by simp⟩,
    List.mem_flatMap.2 ⟨k, List.mem_of_getElem? h, by simp⟩⟩

/-- Whether stage `i` is to have the end `g` of a link in place of `fd`. -/
def Link.Wires (links : List Link) (i : Nat) (fd g : Fd) : Prop :=
  (fd = Fd.stdin ∧ ∃ k, before links i = some k ∧ g = k.readEnd) ∨
    (fd = Fd.stdout ∧ ∃ k, links[i]? = some k ∧ g = k.writeEnd)

theorem placed_of_wired {pids : List Pid} {c : Command} {n : Nat} {q : Program Empty}
    (hlinks : ∀ fd ∈ Link.ends links, Fd.stderr < fd)
    (hw : (wireStage (Link.before links i) links[i]? r).Returns es x)
    (hc : (Link.closeAll links).Returns fs ()) (hg : (afterWiring s c n i x).Reaches gs q)
    {fd g : Fd} {b : Bool} (hL : layout (wired pids es fs ++ gs) fd = some ⟨.inherited g, b⟩)
    (hmem : g ∈ Link.ends links) : Link.Wires links i fd g := by
  have hplaced := placed_of_wireStage hw
    (fun k hk => Nat.ne_of_gt (Nat.lt_trans (by decide) (hlinks _ (mem_ends_of_before hk))))
    fun k hk => by
      have := hlinks _ (mem_ends_of_getElem? hk).2
      exact ⟨Nat.ne_of_gt (Nat.lt_trans (by decide) this),
        Nat.ne_of_gt (Nat.lt_trans (by decide) this)⟩
  have hsplit : layout (wired pids es fs ++ gs) = (layout (wired pids es fs)).after gs :=
    Layout.after_append
  rw [hsplit] at hL
  have hwired := keepsPlaces_afterWiring s c n i x _ gs q hg fd g b hL
  rw [layout_wired, after_closeAll hc] at hwired
  split at hwired
  · cases hwired
  · exact (hplaced fd g b hwired).resolve_left fun h => ‹fd ∉ _› (h ▸ hmem)

end Stages

end PipeShell
