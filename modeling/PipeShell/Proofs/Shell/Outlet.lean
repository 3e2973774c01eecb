import PipeShell.Proofs.Shell.Opener

/-! The standard output of the last command of a line with a redirection. New descriptors are free
ones, as in every run, so what is open as the standard output stays there while other files are
opened in other places. Main statements: when a child that has opened the target becomes a program,
the target is its standard output if the shell has one (`stdout_of_reaches_eval`), and in any case
it has nothing else open for output (`tidy_of_reaches_eval`). -/
namespace PipeShell

open Program

/-- Whether a descriptor made so cannot be given to something new, if `O` were open at the start. -/
def Slot.IsBusy (O : Fd → Prop) (x : Slot) : Prop := ∀ g, x.origin = .inherited g → O g

namespace Layout

variable {O : Fd → Prop} {L : Layout} {e : Event} {fd k : Fd} {x : Slot}

theorem Free.ne_of_isBusy (h : L.Free O k) (hL : L fd = some x) (hx : x.IsBusy O) : k ≠ fd := by
  rintro rfl
  obtain ⟨g, hg, ho⟩ := h x hL
  exact ho (hx g hg)

theorem read_of_isBusy (hf : L.FreshEvent O e) (hL : L fd = some x) (hx : x.IsBusy O)
    (hclose : e.call ≠ .close fd) (hdup : ∀ a, e.call ≠ .dup2 a fd) : L.read e fd = some x := by
  obtain ⟨c, r⟩ := e
  cases c with
  | close k =>
    have hne : fd ≠ k := fun h => hclose (by rw [h])
    exact (Function.update_of_ne hne _ _).trans hL
  | dup2 a b =>
    obtain e | u : Except Errno Unit := r
    · exact hL
    · have hne : fd ≠ b := fun h => hdup a (by rw [h])
      show (if a = b then L else Function.update L b _) fd = some x
      split
      · exact hL
      · exact (Function.update_of_ne hne _ _).trans hL
  | openFile path mode =>
    obtain e | k : Except Errno Fd := r
    · exact hL
    · exact (Function.update_of_ne (Free.ne_of_isBusy hf hL hx).symm _ _).trans hL
  | pipe =>
    obtain e | ⟨a, b⟩ : Except Errno (Fd × Fd) := r
    · exact hL
    · obtain ⟨ha, hb, -⟩ := hf
      have hne := (ha.ne_of_isBusy hL hx).symm
      have hne' := (hb.ne_of_isBusy hL hx).symm
      exact (Function.update_of_ne hne' _ _).trans ((Function.update_of_ne hne _ _).trans hL)
  | _ => exact hL

end Layout

namespace Layout

variable {L : Layout} {e : Event} {k : Fd} {y : Option Slot}

/-- Nothing is open for output, and the standard output has not been taken from elsewhere. -/
def Bare (L : Layout) : Prop :=
  ∀ fd x, L fd = some x → x.isOutput = false ∧ (fd = Fd.stdout → x.duplicated = false)

/-- Nothing but the standard output is open for output, and that if it has been taken from
elsewhere. -/
def Tidy (L : Layout) : Prop :=
  ∀ fd x, L fd = some x → x.isOutput = (decide (fd = Fd.stdout) && x.duplicated)

theorem bare_initial : initial.Bare := by
  rintro fd x ⟨⟩
  exact ⟨rfl, fun _ => rfl⟩

theorem Bare.update (h : L.Bare)
    (hy : ∀ x, y = some x → x.isOutput = false ∧ (k = Fd.stdout → x.duplicated = false)) :
    Bare (Function.update L k y) := by
  intro fd x hx
  rw [Function.update_apply] at hx
  split at hx
  · rw [‹fd = k›]
    exact hy x hx
  · exact h fd x hx

theorem Tidy.update (h : L.Tidy)
    (hy : ∀ x, y = some x → x.isOutput = (decide (k = Fd.stdout) && x.duplicated)) :
    Tidy (Function.update L k y) := by
  intro fd x hx
  rw [Function.update_apply] at hx
  split at hx
  · rw [‹fd = k›]
    exact hy x hx
  · exact h fd x hx

theorem Tidy.close (h : L.Tidy) (k : Fd) (r : Except Errno Unit) : (L.read ⟨.close k, r⟩).Tidy :=
  Tidy.update h nofun

theorem Bare.read (h : L.Bare) (hs : e.settles ≠ some .opened)
    (hdup : ∀ a, e.call ≠ .dup2 a Fd.stdout) : (L.read e).Bare := by
  refine read_cases h (fun k _ => h.update nofun) ?_ ?_ fun a k _ =>
    Bare.update (h.update ?_) ?_
  · rintro a k rfl
    refine h.update fun x hx => ?_
    obtain ⟨y, hy, rfl⟩ := Option.map_eq_some_iff.1 hx
    exact ⟨(h a y hy).1, fun hk => absurd (congrArg (Syscall.dup2 a) hk) (hdup a)⟩
  · rintro path mode k rfl
    refine h.update fun x hx => ?_
    cases hx
    cases mode with
    | create mode => exact absurd rfl hs
    | read | write => exact ⟨rfl, fun _ => rfl⟩
  all_goals
    rintro x ⟨⟩
    exact ⟨rfl, fun _ => rfl⟩

theorem Tidy.silence (h : L.Tidy) (sink : Bytes) (fd : Fd) (b : Except Errno Unit) :
    ((L.read ⟨.openFile sink .write, .ok fd⟩).read ⟨.dup2 fd Fd.stderr, b⟩).Tidy := by
  have hopen : Tidy (L.read ⟨.openFile sink .write, .ok fd⟩) := by
    refine Tidy.update h ?_
    rintro x ⟨⟩
    exact (Bool.and_false _).symm
  refine read_cases hopen nofun ?_ nofun nofun
  rintro a k ⟨⟩
  refine hopen.update fun x hx => ?_
  rw [read, Function.update_self] at hx
  cases hx
  rfl

theorem Bare.take (h : L.Bare) (r : Redirect) (fd : Fd) (u : Unit) (c : Except Errno Unit) :
    (((L.read ⟨.openFile r.target (.create r.mode), .ok fd⟩).read
      ⟨.dup2 fd Fd.stdout, .ok u⟩).read ⟨.close fd, c⟩).Tidy := by
  intro k x hx
  let M : Layout := Function.update L fd (some ⟨.opened r.target (.create r.mode), false⟩)
  replace hx : Function.update (if fd = Fd.stdout then M else
    Function.update M Fd.stdout ((M fd).map Slot.duplicate)) fd none k = some x := hx
  rw [Function.update_apply] at hx
  split at hx
  · cases hx
  · have hother : M k = L k := Function.update_of_ne ‹_› _ _
    split at hx
    · have hk : k ≠ Fd.stdout := fun hk => ‹¬k = fd› (hk.trans ‹fd = Fd.stdout›.symm)
      simp [(h k x (hother.symm.trans hx)).1, hk]
    · rw [Function.update_apply] at hx
      split at hx
      · have hfd : M fd = some ⟨.opened r.target (.create r.mode), false⟩ :=
          Function.update_self _ _ _
        rw [hfd] at hx
        cases hx
        simp [‹k = Fd.stdout›, Slot.duplicate, Slot.isOutput]
      · simp [(h k x (hother.symm.trans hx)).1, ‹¬k = Fd.stdout›]

end Layout

/-- Where the descriptors of a process come from, whether all new ones have been free, and whether
the process has opened the target. -/
structure Outlet where
  layout : Layout
  fresh : Prop
  opened : Prop

namespace Outlet

def start : Outlet := ⟨.initial, True, False⟩

def next (O : Fd → Prop) (x : Outlet) (e : Event) : Outlet :=
  ⟨x.layout.read e, x.fresh ∧ x.layout.FreshEvent O e, x.opened ∨ e.settles = some .opened⟩

/-- A child that has opened the target becomes a program only with the target as its output, if it
has had one before, and with nothing else. -/
def permits (O : Fd → Prop) (r : Redirect) (x : Outlet) : Syscall → Prop
  | .exec _ _ => x.opened → x.layout.Tidy ∧ (x.fresh → O Fd.stdout →
    x.layout Fd.stdout = some ⟨.opened r.target (.create r.mode), true⟩)
  | _ => True

structure Idle (O : Fd → Prop) (links : List Link) (x : Outlet) : Prop where
  bare : x.layout.Bare
  unopened : ¬x.opened
  stdout : x.fresh → O Fd.stdout → (∀ fd ∈ Link.ends links, fd ≠ Fd.stdout) ∧
    x.layout Fd.stdout = some ⟨.inherited Fd.stdout, false⟩

/-- If the target has been opened it is the standard output, at least where there has been one
before. -/
structure Ready (O : Fd → Prop) (links : List Link) (r : Redirect) (x : Outlet) : Prop where
  tidy : x.opened → x.layout.Tidy
  stdout : x.fresh → O Fd.stdout → (∀ fd ∈ Link.ends links, fd ≠ Fd.stdout) ∧
    (x.opened → x.layout Fd.stdout = some ⟨.opened r.target (.create r.mode), true⟩)

/-- Since `x` the target has not been opened, and the standard output remains as it is if it has
been open. -/
structure Keeps (O : Fd → Prop) (x y : Outlet) : Prop where
  fresh : y.fresh → x.fresh
  opened : y.opened → x.opened
  bare : x.layout.Bare → y.layout.Bare
  stdout : y.fresh → O Fd.stdout → ∀ s : Slot, s.IsBusy O → x.layout Fd.stdout = some s →
    y.layout Fd.stdout = some s

variable {O : Fd → Prop} {x y z : Outlet} {e : Event} {links : List Link} {r : Redirect}

theorem Keeps.refl (x : Outlet) : x.Keeps O x := ⟨id, id, id, fun _ _ _ _ h => h⟩

theorem Keeps.trans (h : x.Keeps O y) (h' : y.Keeps O z) : x.Keeps O z where
  fresh hz := h.fresh (h'.fresh hz)
  opened hz := h.opened (h'.opened hz)
  bare hx := h'.bare (h.bare hx)
  stdout hz ho s hs hx := h'.stdout hz ho s hs (h.stdout (h'.fresh hz) ho s hs hx)

theorem keeps_next (hs : e.settles ≠ some .opened)
    (hclose : x.fresh → O Fd.stdout → e.call ≠ .close Fd.stdout)
    (hdup : ∀ a, e.call ≠ .dup2 a Fd.stdout) : x.Keeps O (x.next O e) where
  fresh h := h.1
  opened h := h.resolve_right hs
  bare h := h.read hs hdup
  stdout h ho _ hbusy hx := Layout.read_of_isBusy h.2 hx hbusy (hclose h.1 ho) hdup

theorem Idle.keeps (hx : x.Idle O links) (h : x.Keeps O y) : y.Idle O links where
  bare := h.bare hx.bare
  unopened hy := hx.unopened (h.opened hy)
  stdout hy ho := by
    obtain ⟨hends, hL⟩ := hx.stdout (h.fresh hy) ho
    refine ⟨hends, h.stdout hy ho _ ?_ hL⟩
    rintro g ⟨⟩
    exact ho

theorem Ready.keeps (hx : x.Ready O links r) (h : x.Keeps O y)
    (ht : x.layout.Tidy → y.layout.Tidy) : y.Ready O links r where
  tidy hn := ht (hx.tidy (h.opened hn))
  stdout hy ho := by
    obtain ⟨hends, hL⟩ := hx.stdout (h.fresh hy) ho
    exact ⟨hends, fun hn => h.stdout hy ho _ nofun (hL (h.opened hn))⟩

theorem Idle.ready (hx : x.Idle O links) (h : y.fresh → x.fresh) (hn : y.opened → x.opened) :
    y.Ready O links r where
  tidy hy := absurd (hn hy) hx.unopened
  stdout hy ho := ⟨(hx.stdout (h hy) ho).1, fun hy => absurd (hn hy) hx.unopened⟩

theorem next_of_not_moves (h : e.call.movesDescriptors = false) : x.next O e = x := by
  obtain ⟨L, f, o⟩ := x
  obtain ⟨c, r⟩ := e
  have hplain : L.read ⟨c, r⟩ = L ∧ L.FreshEvent O ⟨c, r⟩ ∧
      (⟨c, r⟩ : Event).settles ≠ some .opened := by
    cases c <;> first | exact ⟨rfl, trivial, nofun⟩ | cases h
  obtain ⟨hL, hf, hs⟩ := hplain
  simp only [next, hL, hf, hs, and_true, or_false]

theorem next_of_interrupted (path : Bytes) (mode : OpenMode) :
    x.next O ⟨.openFile path mode, .error Errno.interrupted⟩ = x := by
  have hs : (⟨.openFile path mode, .error Errno.interrupted⟩ : Event).settles ≠ some .opened := by
    cases mode <;> simp [Event.settles]
  have hf : x.layout.FreshEvent O ⟨.openFile path mode, .error Errno.interrupted⟩ := trivial
  have hL : x.layout.read ⟨.openFile path mode, .error Errno.interrupted⟩ = x.layout := rfl
  simp only [next, hL, hf, hs, and_true, or_false]

end Outlet

def Redirect.outlet (O : Fd → Prop) (r : Redirect) : Watch Outlet :=
  ⟨Outlet.next O, Outlet.permits O r⟩

namespace Outlet

variable {st : State} {l : CommandLine} {r : Redirect} {O : Fd → Prop} {x : Outlet}
  {links : List Link} {c : Command} {α : Type}

theorem ignores_of_not_moves {d : Syscall} (h : d.movesDescriptors = false)
    (hp : x.permits O r d) : (r.outlet O).Ignores x d :=
  ⟨hp, fun _ => Outlet.next_of_not_moves h⟩

theorem permits_of_ne_exec {d : Syscall} (h : ∀ path argv, d ≠ .exec path argv) :
    x.permits O r d := by
  cases d with
  | exec path argv => exact absurd rfl (h path argv)
  | _ => trivial

theorem heeds_of_not_moves {p : Program α} {b : Bool} {Q : Outlet → α → Prop}
    (h : p.Calls (fun _ d => d.movesDescriptors = false ∧ ∀ path argv, d ≠ .exec path argv)
      (fun _ _ => True) b)
    (hQ : ∀ a, Q x a) : p.Heeds (r.outlet O) Q x :=
  heeds_of_calls h (fun _ _ hd => ignores_of_not_moves hd.1 (permits_of_ne_exec hd.2))
    fun _ a _ => hQ a

theorem heeds_exit (n : Int32) {Q : Outlet → Empty → Prop} :
    (exit n).Heeds (r.outlet O) Q x :=
  heeds_ask.2 ⟨trivial, nofun⟩

theorem heeds_closeAll {Q : Outlet → Unit → Prop} (hQ : ∀ x, Q x ()) :
    (Link.closeAll links).Heeds (r.outlet O) Q x := by
  induction links generalizing x with
  | nil => exact hQ x
  | cons k links ih =>
    rw [Link.closeAll, heeds_bind]
    refine heeds_ask.2 ⟨trivial, fun _ => ?_⟩
    rw [heeds_bind]
    exact heeds_ask.2 ⟨trivial, fun _ => ih⟩

theorem heeds_closeLinks
    (hx : x.fresh → O Fd.stdout → ∀ fd ∈ Link.ends links, fd ≠ Fd.stdout)
    {Q : Outlet → Unit → Prop}
    (hQ : ∀ y, x.Keeps O y → (x.layout.Tidy → y.layout.Tidy) → Q y ()) :
    (Link.closeAll links).Heeds (r.outlet O) Q x := by
  induction links generalizing x with
  | nil => exact hQ x (.refl x) id
  | cons k links ih =>
    have hclose : ∀ {y : Outlet} {fd : Fd} (reply : Except Errno Unit),
        (y.fresh → O Fd.stdout → fd ≠ Fd.stdout) → y.Keeps O (y.next O ⟨.close fd, reply⟩) := by
      intro y fd reply hne
      refine Outlet.keeps_next nofun (fun hy ho heq => ?_) nofun
      cases heq
      exact hne hy ho rfl
    rw [Link.closeAll, heeds_bind]
    refine heeds_ask.2 ⟨trivial, fun a => ?_⟩
    have h₁ := hclose a fun hy ho => hx hy ho k.readEnd (by simp [Link.ends])
    rw [heeds_bind]
    refine heeds_ask.2 ⟨trivial, fun b => ?_⟩
    have h₂ := h₁.trans
      (hclose b fun hy ho => hx (h₁.fresh hy) ho k.writeEnd (by simp [Link.ends]))
    refine ih (fun hy ho fd hfd => hx (h₂.fresh hy) ho fd ?_) fun y hy ht =>
      hQ y (h₂.trans hy) fun h => ht ((h.close k.readEnd a).close k.writeEnd b)
    exact List.mem_cons_of_mem _ (List.mem_cons_of_mem _ hfd)

theorem heeds_silenceStderr {sink : Bytes} {Q : Outlet → Except SetupError Unit → Prop}
    (hQ : ∀ y a, x.Keeps O y → (x.layout.Tidy → y.layout.Tidy) → Q y a) :
    (silenceStderr sink).Heeds (r.outlet O) Q x := by
  unfold silenceStderr openPath
  split
  · exact hQ _ _ (.refl x) id
  · rw [heeds_bind, heeds_bind]
    refine heeds_openFile.2 ⟨trivial, next_of_interrupted sink .write, fun a _ => ?_⟩
    have hopen := Outlet.keeps_next (O := O) (x := x) (e := ⟨.openFile sink .write, a⟩)
      (by cases a <;> simp [Event.settles]) (by simp) (by simp)
    cases a with
    | error e => exact hQ _ _ hopen id
    | ok fd =>
      show (rebind fd Fd.stderr).Heeds _ Q _
      unfold rebind
      rw [heeds_bind]
      refine heeds_ask.2 ⟨trivial, fun b => ?_⟩
      have hdup := hopen.trans (Outlet.keeps_next (e := ⟨.dup2 fd Fd.stderr, b⟩)
        (by cases b <;> simp [Event.settles]) (by simp) (by simp))
      cases b with
      | error e => exact hQ _ _ hdup fun ht => ht.silence sink fd (.error e)
      | ok u =>
        rw [heeds_bind]
        refine heeds_ask.2 ⟨trivial, fun c => ?_⟩
        have hclose : x.Keeps O (((x.next O ⟨.openFile sink .write, .ok fd⟩).next O
            ⟨.dup2 fd Fd.stderr, .ok u⟩).next O ⟨.close fd, c⟩) := {
          fresh := fun h => hdup.fresh h.1
          opened := fun h => hdup.opened (h.resolve_right (by simp [Event.settles]))
          bare := fun h => (hdup.bare h).read (e := ⟨.close fd, c⟩) (by simp [Event.settles]) (by simp)
          stdout := by
            intro h ho s hs hL
            have hfree : x.layout.Free O fd := h.1.1.2
            have hne : fd ≠ Fd.stdout := hfree.ne_of_isBusy hL hs
            refine Layout.read_of_isBusy h.2 (hdup.stdout h.1 ho s hs hL) hs (fun heq => ?_) (by simp)
            cases heq
            exact hne rfl }
        have htidy := fun ht : x.layout.Tidy => (ht.silence sink fd (.ok u)).close fd c
        cases c <;> exact hQ _ _ hclose htidy

theorem heeds_takeStdout (hx : x.Idle O links) {Q : Outlet → Except SetupError Unit → Prop}
    (hQ : ∀ y a, (a = .ok () → y.Ready O links r) → Q y a) :
    r.takeStdout.Heeds (r.outlet O) Q x := by
  unfold Redirect.takeStdout Redirect.openTarget openPath
  split
  · exact hQ _ _ nofun
  · rw [heeds_bind, heeds_bind]
    refine heeds_openFile.2 ⟨trivial, next_of_interrupted r.target _, fun a _ => ?_⟩
    cases a with
    | error e => exact hQ _ _ nofun
    | ok fd =>
      show (rebind fd Fd.stdout).Heeds _ Q _
      unfold rebind
      rw [heeds_bind]
      refine heeds_ask.2 ⟨trivial, fun b => ?_⟩
      cases b with
      | error e => exact hQ _ _ nofun
      | ok u =>
        rw [heeds_bind]
        refine heeds_ask.2 ⟨trivial, fun c => ?_⟩
        have hready : (((x.next O ⟨.openFile r.target (.create r.mode), .ok fd⟩).next O
            ⟨.dup2 fd Fd.stdout, .ok u⟩).next O ⟨.close fd, c⟩).Ready O links r := by
          refine ⟨fun _ => hx.bare.take r fd u c, fun h ho => ?_⟩
          obtain ⟨hends, hL⟩ := hx.stdout h.1.1.1 ho
          have hfree : x.layout.Free O fd := h.1.1.2
          have hne : fd ≠ Fd.stdout := hfree.ne_of_isBusy hL (by rintro g ⟨⟩; exact ho)
          refine ⟨hends, fun _ => ?_⟩
          simp [Outlet.next, Layout.read, hne, hne.symm, Slot.duplicate]
        cases c <;> exact hQ _ _ fun _ => hready

theorem heeds_runInChild (hx : x.Ready O links r) (isTerminal : Bool)
    {Q : Outlet → Empty → Prop} : (c.runInChild st isTerminal).Heeds (r.outlet O) Q x := by
  by_cases hc : c.builtin? = none
  · rw [runInChild_external hc, heeds_bind]
    refine heeds_silenceStderr fun y a hy ht => ?_
    have hready := hx.keeps hy ht
    have hafter : (afterSilence c a).Calls (fun _ => (r.outlet O).Ignores y) (fun _ _ => True)
        true :=
      calls_afterSilence
        (fun _ _ _ => ignores_of_not_moves (d := .exec _ _) rfl fun hn =>
          ⟨hready.tidy hn, fun hf ho => (hready.stdout hf ho).2 hn⟩)
        (ignores_of_not_moves (d := .environmentPath) rfl trivial)
        (ignores_of_not_moves (d := .exit 1) rfl trivial)
    exact heeds_of_calls hafter (fun _ _ h => h) fun _ n => n.elim
  unfold Command.runInChild
  split
  · split
    · exact heeds_exit _
    · rw [heeds_bind]
      exact heeds_ask.2 ⟨trivial, fun _ => heeds_exit _⟩
  · refine heeds_of_not_moves (b := true) ?_ nofun
    rw [calls_bind]
    exact calls_changeDirectory ⟨rfl, nofun⟩ fun n => calls_exit.2 ⟨rfl, nofun⟩
  · exact absurd ‹_› hc

theorem heeds_redirectedChild (hx : x.Idle O []) {Q : Outlet → Empty → Prop} :
    (redirectedChild st c r).Heeds (r.outlet O) Q x := by
  rw [redirectedChild_eq, heeds_bind]
  refine heeds_silenceStderr fun y _ hy _ => ?_
  rw [heeds_bind]
  refine heeds_takeStdout (hx.keeps hy) fun z a hz => ?_
  obtain e | ⟨⟨⟩⟩ := a
  · exact heeds_exit _
  · have hrun : ∀ b : Bool,
        (if b then c.runInChild st true else exit 1).Heeds (r.outlet O) Q z := by
      intro b
      split
      · exact heeds_runInChild (hz rfl) true
      · exact heeds_exit _
    unfold afterTarget
    rw [heeds_bind]
    split
    · exact heeds_of_not_moves (b := true)
        (calls_resolvable (fun _ => ⟨rfl, nofun⟩) fun _ => trivial) hrun
    · exact hrun true

theorem heeds_stageChild (hx : x.Idle O links) {n i : Nat} {Q : Outlet → Empty → Prop} :
    (stageChild st links (some r) n i c).Heeds (r.outlet O) Q x := by
  have hafter : ∀ y a, (a = .ok () → y.Ready O links r) →
      (Link.closeAll links >>= fun _ => afterWiring st c n i a).Heeds (r.outlet O) Q y := by
    intro y a hy
    rw [heeds_bind]
    obtain e | ⟨⟨⟩⟩ := a
    · exact heeds_closeAll fun z => heeds_exit _
    · exact heeds_closeLinks (fun hf ho => ((hy rfl).stdout hf ho).1) fun z hz ht =>
        heeds_runInChild ((hy rfl).keeps hz ht) _
  have houtput : ∀ y : Outlet, y.Idle O links →
      (wireOutput links[i]? (some r)).Heeds (r.outlet O) (fun y a =>
        (Link.closeAll links >>= fun _ => afterWiring st c n i a).Heeds (r.outlet O) Q y) y := by
    intro y hy
    cases links[i]? with
    | none => exact heeds_takeStdout hy hafter
    | some k =>
      unfold wireOutput
      rw [heeds_bind]
      refine heeds_ask.2 ⟨trivial, fun a => ?_⟩
      have hready : (y.next O ⟨.dup2 k.writeEnd Fd.stdout, a⟩).Ready O links r :=
        hy.ready (fun h => h.1) fun h => h.resolve_right (by cases a <;> simp [Event.settles])
      split <;> exact hafter _ _ fun _ => hready
  rw [stageChild_eq, heeds_bind]
  cases Link.before links i with
  | none =>
    rw [wireStage_none]
    exact houtput x hx
  | some k =>
    rw [wireStage_some, heeds_bind]
    refine heeds_ask.2 ⟨trivial, fun a => ?_⟩
    have hkeeps := Outlet.keeps_next (O := O) (x := x) (e := ⟨.dup2 k.readEnd Fd.stdin, a⟩)
      (by cases a <;> simp [Event.settles]) (by simp) (by simp)
    cases a with
    | error e => exact hafter _ _ (by simp)
    | ok u => exact houtput _ (hx.keeps hkeeps)

theorem heeds_pushFork {b : JobBuilder}
    {Q : Outlet → Except Errno (ForkSide × JobBuilder) → Prop} (hQ : ∀ a, Q x a) :
    b.pushFork.Heeds (r.outlet O) Q x := by
  unfold JobBuilder.pushFork
  rw [heeds_bind]
  have hfork : (r.outlet O).Ignores x .fork := ignores_of_not_moves rfl trivial
  refine heeds_ask.2 ⟨hfork.1, fun a => ?_⟩
  rw [hfork.2 a]
  match a with
  | .error e => exact hQ _
  | .ok .child =>
    rw [heeds_bind]
    have hdefault : (r.outlet O).Ignores x .defaultBrokenPipe := ignores_of_not_moves rfl trivial
    refine heeds_ask.2 ⟨hdefault.1, fun a => ?_⟩
    rw [hdefault.2 a]
    exact hQ _
  | .ok (.parent pid) => exact hQ _

theorem heeds_forkAndWait {child : Program Empty}
    (hc : child.Heeds (r.outlet O) (fun _ _ => True) x) :
    (forkAndWait child).Heeds (r.outlet O) (fun _ _ => True) x := by
  unfold forkAndWait
  rw [heeds_bind]
  refine heeds_pushFork fun a => ?_
  match a with
  | .error e =>
    refine heeds_of_not_moves (b := false) ?_ fun _ => trivial
    rw [calls_bind]
    exact calls_report (fun _ => ⟨rfl, nofun⟩) trivial
  | .ok (.child, b) => exact heeds_never.2 hc
  | .ok (.parent pid, b) =>
    refine heeds_of_not_moves (b := false) ?_ fun _ => trivial
    rw [calls_bind]
    refine calls_jobWait (fun _ _ => ⟨rfl, nofun⟩) fun (j, e) => ?_
    cases e with
    | none => trivial
    | some e =>
      rw [calls_bind]
      exact calls_report (fun _ => ⟨rfl, nofun⟩) trivial

theorem heeds_spawnStages (hx : x.Idle O links) {commands : List Command}
    {Q : Outlet → Except Errno Job → Prop} (hQ : ∀ a, Q x a) :
    (spawnStages st commands links (some r)).Heeds (r.outlet O) Q x := by
  have hgo : ∀ cs b i,
      (spawnStages.go st commands links (some r) b i cs).Heeds (r.outlet O) Q x := by
    intro cs
    induction cs with
    | nil => exact fun b i => hQ _
    | cons c cs ih =>
      intro b i
      rw [spawnStages.go, heeds_bind]
      refine heeds_pushFork fun a => ?_
      obtain e | ⟨_ | pid, b⟩ := a
      · refine heeds_of_not_moves (b := false) ?_ hQ
        rw [JobBuilder.abandon, calls_bind]
        exact calls_terminateAll (fun _ _ => ⟨rfl, by simp⟩) trivial
      · exact heeds_never.2 (heeds_stageChild hx)
      · exact ih b (i + 1)
  exact hgo _ _ 0

theorem heeds_conclude {a : Except Errno Job} :
    (conclude l links a).Heeds (r.outlet O) (fun _ _ => True) x := by
  cases a with
  | error e =>
    rw [conclude, heeds_bind]
    refine heeds_of_not_moves (b := false) (calls_report (fun _ => ⟨rfl, by simp⟩) trivial)
      fun _ => ?_
    rw [heeds_bind]
    exact heeds_closeAll fun _ => trivial
  | ok job =>
    rw [conclude, heeds_bind]
    refine heeds_closeAll fun _ => heeds_of_not_moves (b := false) ?_ fun _ => trivial
    exact calls_awaitStages (fun _ _ => ⟨rfl, by simp⟩) (fun _ => ⟨rfl, by simp⟩) fun _ => trivial

theorem heeds_openMany (hx : x.Idle O []) {n : Nat}
    {Q : Outlet → Except Errno (List Link) × Unit → Prop} (he : ∀ y e, Q y (.error e, ()))
    (hQ : ∀ y links, y.Idle O links → Q y (.ok links, ())) :
    (Link.openMany Link.fresh () n).Heeds (r.outlet O) Q x := by
  have hgo : ∀ n (opened : List Link) (y : Outlet), y.Idle O opened →
      (Link.openMany.go Link.fresh opened () n).Heeds (r.outlet O) Q y := by
    intro n
    induction n with
    | zero => exact fun opened y hy => hQ y opened hy
    | succ n ih =>
      intro opened y hy
      rw [Link.openMany.go, heeds_bind]
      unfold Link.fresh Link.create
      rw [heeds_bind, heeds_bind]
      refine heeds_ask.2 ⟨trivial, fun a => ?_⟩
      obtain e | ⟨a, b⟩ := a
      · show (Link.closeAll opened >>= fun _ => done (.error e, ())).Heeds _ Q _
        rw [heeds_bind]
        exact heeds_closeAll fun _ => he _ e
      · have hkeeps := hy.keeps (Outlet.keeps_next (O := O) (x := y) (e := ⟨.pipe, .ok (a, b)⟩)
          (by simp [Event.settles]) (by simp) (by simp))
        refine ih _ _ ⟨hkeeps.bare, hkeeps.unopened, fun h ho => ?_⟩
        obtain ⟨hends, hL⟩ := hkeeps.stdout h ho
        obtain ⟨ha, hb, -⟩ : y.layout.Free O a ∧ y.layout.Free O b ∧ a ≠ b := h.2
        have hbusy : Slot.IsBusy O ⟨.inherited Fd.stdout, false⟩ := by
          rintro g ⟨⟩
          exact ho
        have hbefore := (hy.stdout h.1 ho).2
        refine ⟨fun fd hfd => ?_, hL⟩
        obtain hfd | rfl | rfl : fd ∈ Link.ends opened ∨ fd = a ∨ fd = b := by
          simpa [Link.ends] using hfd
        · exact hends fd hfd
        · exact ha.ne_of_isBusy hbefore hbusy
        · exact hb.ne_of_isBusy hbefore hbusy
  exact hgo n [] x hx

theorem heeds_runLine (hr : l.redirect = some r) :
    (runLine st l).Heeds (r.outlet O) (fun _ _ => True) .start := by
  have hstart : Outlet.start.Idle O [] := ⟨Layout.bare_initial, id, fun _ _ => ⟨by simp [Link.ends], rfl⟩⟩
  unfold runLine
  split
  · by_cases hl : l.commands = []
    · rw [runPipeline_eq, runPipelineWith, if_pos hl]
      trivial
    · rw [runPipeline_eq, runPipelineWith_eq hl, heeds_bind]
      refine heeds_openMany hstart (fun y e => ?_) fun y links hy => ?_
      · refine heeds_of_not_moves (b := false) ?_ fun _ => trivial
        rw [calls_bind]
        exact calls_report (fun _ => ⟨rfl, by simp⟩) trivial
      · show (runStages st l links).Heeds _ _ y
        rw [runStages, hr, heeds_bind]
        exact heeds_spawnStages hy fun _ => heeds_conclude
  · split
    · trivial
    · rename_i c _ r' hc hr'
      obtain rfl := Option.some.inj (hr.symm.trans hr')
      exact heeds_forkAndWait (heeds_redirectedChild hstart)
    · rename_i hr'
      rw [hr'] at hr
      cases hr

theorem heeds_eval (hr : l.redirect = some r) :
    (eval st l).Heeds (r.outlet O) (fun _ _ => True) .start := by
  have hline : (evalLine st l).Heeds (r.outlet O) (fun _ _ => True) .start := by
    unfold evalLine
    split
    · split
      · exact heeds_never.2 (heeds_exit _)
      · rename_i hr'
        rw [hr'] at hr
        cases hr
      · exact heeds_runLine hr
    · exact heeds_runLine hr
  unfold eval
  rw [heeds_bind]
  exact hline.mono fun _ _ _ => trivial

theorem after_eq (x : Outlet) (es : List Event) : (r.outlet O).after x es =
    ⟨x.layout.after es, x.fresh ∧ x.layout.Fresh O es,
      x.opened ∨ ∃ e ∈ es, e.settles = some .opened⟩ := by
  induction es generalizing x with
  | nil => simp [Layout.Fresh]
  | cons e es ih =>
    rw [Watch.after_cons, ih]
    simp [Redirect.outlet, Outlet.next, Layout.Fresh, and_assoc, or_assoc]

end Outlet

section Program

variable {l : CommandLine} {st : State} {r : Redirect} {O : Fd → Prop} {es : List Event}
  {path : Bytes} {argv : List Bytes} {again : (Syscall.exec path argv).Reply → Bool}
  {k : (Syscall.exec path argv).Reply → Program (UInt8 × State)} (hr : l.redirect = some r)
  (h : (eval st l).Reaches es (call (.exec path argv) again k)) {e : Event} (he : e ∈ es)
  (hs : e.settles = some .opened)
include hr h he hs

/-- When a child that has opened the target becomes a program, the target is its output, if the
shell has its own open. -/
theorem stdout_of_reaches_eval (hf : Layout.initial.Fresh O es) (ho : O Fd.stdout) :
    layout es Fd.stdout = some ⟨.opened r.target (.create r.mode), true⟩ := by
  have hpermits := (Outlet.heeds_eval (O := O) hr).permits_of_reaches h
  rw [Outlet.after_eq] at hpermits
  exact (hpermits (.inr ⟨e, he, hs⟩)).2 ⟨trivial, hf⟩ ho

theorem tidy_of_reaches_eval : (layout es).Tidy := by
  have hpermits := (Outlet.heeds_eval (O := fun _ => False) hr).permits_of_reaches h
  rw [Outlet.after_eq] at hpermits
  exact (hpermits (.inr ⟨e, he, hs⟩)).1

end Program

end PipeShell
