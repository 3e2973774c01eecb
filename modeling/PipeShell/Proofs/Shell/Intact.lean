import PipeShell.Proofs.Kernel.Descent
import PipeShell.Proofs.Shell.Carrying
import PipeShell.Proofs.Shell.Setup

/-! The shell process after an evaluation. On the way to its end an evaluation may open links, but
they get new descriptors and are closed again. Main statement: when an evaluation returns, the shell
has the descriptors that it had before, and only a lone `cd` has moved it (`eval_leaves_intact`). -/
namespace PipeShell

open Program

def Link.ends (ls : List Link) : List Fd := ls.flatMap fun l => [l.readEnd, l.writeEnd]

theorem Link.enacts_closes_iff {ls : List Link} {es : List Event} :
    Enacts (closes ls) es ↔ es.map Event.call = (ends ls).map .close := by
  rw [← enacts_map_call_iff]
  simp [closes, ends, List.map_flatMap]

namespace Layout

variable {O : Fd → Prop} {L : Layout} {ls : List Link} {es : List Event}

/-- Whether a descriptor is as it was at the start, if `O` are those that were open then. -/
def Intact (O : Fd → Prop) (L : Layout) (fd : Fd) : Prop :=
  L fd = some ⟨.inherited fd, false⟩ ∨ L fd = none ∧ ¬O fd

/-- All descriptors are as they were at the start but for the ends of the links `ls`, which are
new. -/
structure Frame (O : Fd → Prop) (ls : List Link) (L : Layout) : Prop where
  new : ∀ fd ∈ Link.ends ls, ¬O fd
  intact : ∀ fd, fd ∉ Link.ends ls → L.Intact O fd

theorem frame_initial : Frame O [] initial where
  new := nofun
  intact _ _ := .inl rfl

namespace Frame

theorem not_of_free (h : Frame O ls L) {fd : Fd} (hf : L.Free O fd) : ¬O fd := by
  by_cases hfd : fd ∈ Link.ends ls
  · exact h.new fd hfd
  · obtain hL | ⟨-, ho⟩ := h.intact fd hfd
    · obtain ⟨g, hg, ho⟩ := hf _ hL
      obtain rfl : fd = g := Origin.inherited.inj hg
      exact ho
    · exact ho

theorem pipe (h : Frame O ls L) {r w : Fd} (hf : L.FreshEvent O ⟨.pipe, .ok (r, w)⟩) :
    Frame O (ls ++ [⟨r, w⟩]) (L.read ⟨.pipe, .ok (r, w)⟩) := by
  obtain ⟨hr, hw, -⟩ := hf
  have hends : ∀ fd, fd ∈ Link.ends (ls ++ [⟨r, w⟩]) ↔ fd ∈ Link.ends ls ∨ fd = r ∨ fd = w := by
    simp [Link.ends]
  constructor
  · intro fd hfd
    obtain hfd | rfl | rfl := (hends fd).1 hfd
    · exact h.new fd hfd
    · exact h.not_of_free hr
    · exact h.not_of_free hw
  · intro fd hfd
    rw [hends, not_or, not_or] at hfd
    obtain ⟨hfd, hne, hne'⟩ := hfd
    have hL : L.read ⟨.pipe, .ok (r, w)⟩ fd = L fd := by
      simp [read, hne, hne']
    rw [Intact, hL]
    exact h.intact fd hfd

theorem closes (h : Frame O ls L) {L' : Layout}
    (hL : ∀ fd, L' fd = if fd ∈ Link.ends ls then none else L fd) : Frame O [] L' where
  new := nofun
  intact fd _ := by
    rw [Intact, hL]
    split
    · exact .inr ⟨rfl, h.new fd ‹_›⟩
    · exact h.intact fd ‹_›

end Frame

end Layout

section Lines

variable {s : State} {l : CommandLine}

theorem evalLine_of_hasPipes (h : l.hasPipes = true) : evalLine s l = runPipeline s l := by
  have hl : runLine s l = runPipeline s l := if_pos h
  unfold evalLine
  split
  · rename_i c hc
    rw [(CommandLine.of_soleCommand hc).1] at h
    cases h
  · exact hl

theorem evalLine_of_movesShell {c : Command} (h : l.MovesShell c) :
    evalLine s l = Builtin.changeDirectory c.arguments := by
  obtain ⟨hb, hp, hr, hc⟩ := h
  have hl : runLine s l = Builtin.changeDirectory c.arguments := by
    obtain ⟨cs, hcs⟩ : ∃ cs, l.commands = c :: cs := List.head?_eq_some_iff.1 hc
    simp [runLine, hp, hcs, hr, runSingle, hb]
  unfold evalLine
  split
  · rename_i d hd
    rw [(CommandLine.of_soleCommand hd).2, List.head?_cons] at hc
    obtain rfl := Option.some.inj hc
    simp [hb, hr]
  · exact hl

end Lines

section Descriptors

variable {O : Fd → Prop} {L : Layout} {s : State} {l : CommandLine} {links : List Link}
  {es : List Event}

theorem returns_source_iff {x : Except Errno Link × Unit} :
    (do return (← Link.create, ()) : Program (Except Errno Link × Unit)).Returns es x ↔
      (∃ e, es = [⟨.pipe, .error e⟩] ∧ x = (.error e, ())) ∨
      ∃ r w, es = [⟨.pipe, .ok (r, w)⟩] ∧ x = (.ok ⟨r, w⟩, ()) := by
  simp only [Link.create, bind_assoc, returns_bind_iff, returns_pipe_iff]
  constructor
  · rintro ⟨a, es₁, es₂, rfl, rfl, y, fs, gs, rfl, hy, hx⟩
    obtain ⟨rfl, rfl⟩ := returns_done_iff.1 hx
    obtain e | ⟨r, w⟩ := a
    · obtain ⟨rfl, rfl⟩ := returns_done_iff.1 hy
      exact .inl ⟨e, rfl, rfl⟩
    · obtain ⟨rfl, rfl⟩ := returns_done_iff.1 hy
      exact .inr ⟨r, w, rfl, rfl⟩
  · rintro (⟨e, rfl, rfl⟩ | ⟨r, w, rfl, rfl⟩)
    · exact ⟨.error e, _, [], rfl, rfl, .error e, [], [], rfl, .refl _, .refl _⟩
    · exact ⟨.ok (r, w), _, [], rfl, rfl, .ok ⟨r, w⟩, [], [], rfl, .refl _, .refl _⟩

theorem frame_openMany (n : Nat) {opened : List Link} {x : Except Errno (List Link) × Unit}
    (h : (Link.openMany.go (fun () => do return (← Link.create, ())) opened () n).Returns es x)
    (hf : L.Fresh O es) (hL : L.Frame O opened) :
    (L.after es).Frame O (x.1.toOption.getD []) := by
  induction n generalizing opened es L with
  | zero =>
    obtain ⟨rfl, rfl⟩ := returns_done_iff.1 h
    exact hL
  | succ n ih =>
    rw [Link.openMany.go, returns_bind_iff] at h
    obtain ⟨y, es₁, es₂, rfl, hy, h⟩ := h
    obtain ⟨hf₁, hf₂⟩ := Layout.fresh_append.1 hf
    rw [Layout.after_append]
    obtain ⟨e, rfl, rfl⟩ | ⟨r, w, rfl, rfl⟩ := returns_source_iff.1 hy
    · -- those before are closed
      have hclose := (performs_closeAll opened).andThen
        (performs_done (Except.error (α := List Link) e, ()))
      obtain ⟨hes, rfl⟩ := (hclose.1 _ _).1 h
      rw [List.append_nil, Link.enacts_closes_iff] at hes
      exact hL.closes (Layout.after_of_closes hes)
    · exact ih h hf₂ (hL.pipe hf₁.1)

theorem not_moves_of_conduct {c : Syscall} (h : Conduct false c) : c.movesDescriptors = false := by
  cases c <;> first | rfl | cases h

theorem after_of_own_calls {α : Type} {p : Program α} {a : α}
    (hp : p.Calls (fun b c => b = true ∨ c.movesDescriptors = false) InShell false)
    (h : p.Returns es a) : L.after es = L := by
  obtain ⟨hes, hb⟩ := hp.of_reaches h
  have ho : Own es := inChild_eq_false_iff.1 hb
  exact Layout.after_of_not_moves fun e he => (hes.of_own ho e he).resolve_left nofun

theorem after_closeAll (h : (Link.closeAll links).Returns es ()) (fd : Fd) :
    L.after es fd = if fd ∈ Link.ends links then none else L fd := by
  have hes := (((performs_closeAll links).1 _ _).1 h).1
  exact Layout.after_of_closes (Link.enacts_closes_iff.1 hes) fd

theorem after_runStages {status : UInt8} (h : (runStages s l links).Returns es status) (fd : Fd) :
    L.after es fd = if fd ∈ Link.ends links then none else L fd := by
  rw [runStages, returns_bind_iff] at h
  obtain ⟨x, es₁, es₂, rfl, h₁, h₂⟩ := h
  have hspawn : (spawnStages s l.commands links l.redirect).Calls
      (fun b c => b = true ∨ c.movesDescriptors = false) InShell false := by
    refine calls_spawnStages (fun b c hc => ?_) fun _ _ => .inr rfl
    cases b
    · exact .inr (not_moves_of_conduct hc)
    · exact .inl rfl
  rw [Layout.after_append, after_of_own_calls hspawn h₁]
  cases x with
  | error e =>
    rw [conclude, returns_bind_iff] at h₂
    obtain ⟨u, fs, gs, rfl, hreport, hclose⟩ := h₂
    rw [returns_bind_iff] at hclose
    obtain ⟨⟨⟩, gs, hs, rfl, hclose, hdone⟩ := hclose
    obtain ⟨rfl, -⟩ := returns_done_iff.1 hdone
    rw [Layout.after_append, after_of_own_calls (calls_report (fun _ => .inr rfl) rfl) hreport,
      List.append_nil]
    exact after_closeAll hclose fd
  | ok job =>
    rw [conclude, returns_bind_iff] at h₂
    obtain ⟨u, fs, gs, rfl, hclose, hwait⟩ := h₂
    have hstill : (awaitStages l job).Calls (fun b c => b = true ∨ c.movesDescriptors = false)
        InShell false :=
      calls_awaitStages (fun _ _ => .inr rfl) (fun _ => .inr rfl) fun _ => rfl
    rw [Layout.after_append, after_of_own_calls hstill hwait]
    exact after_closeAll hclose fd

/-- However the calls of an evaluation are answered, when it returns the shell has the descriptors
that it had before. -/
theorem frame_evalLine {status : UInt8} (h : (evalLine s l).Returns es status)
    (hf : Layout.initial.Fresh O es) : (layout es).Frame O [] := by
  cases hp : l.hasPipes with
  | false =>
    have hmakes := makes_of_reaches_evalLine h (own_of_returns_evalLine h)
    rw [layout, Layout.after_of_not_moves]
    · exact Layout.frame_initial
    · rintro ⟨c, r⟩ he
      have hc : l.Makes false c := hmakes _ he
      cases hc with
      | conduct h => exact not_moves_of_conduct h
      | plumbing hl => rw [hp] at hl; cases hl
      | moves | ends => rfl
  | true =>
    rw [evalLine_of_hasPipes hp, runPipeline] at h
    by_cases hl : l.commands = []
    · rw [runPipelineWith, if_pos hl] at h
      obtain ⟨rfl, -⟩ := returns_done_iff.1 h
      exact Layout.frame_initial
    · rw [runPipelineWith_eq hl, returns_bind_iff] at h
      obtain ⟨⟨x, ⟨⟩⟩, es₁, es₂, rfl, hopen, h⟩ := h
      have hL := frame_openMany _ hopen (Layout.fresh_append.1 hf).1 Layout.frame_initial
      rw [layout, Layout.after_append]
      cases x with
      | error e =>
        rw [after_of_own_calls ?_ h]
        · exact hL
        · rw [calls_bind]
          exact calls_report (fun _ => .inr rfl) rfl
      | ok links => exact hL.closes (after_runStages h)

end Descriptors

section Runs

variable {ι ρ : Type} {m : Machine ι} {s₀ t : System ι ρ} {H : Pid → Past} {sh : Pid}
  {p₀ p : Process ι ρ} {s : State} {l : CommandLine} {rest : UInt8 × State → Program ρ}

theorem Fits.eq_of_intact {L : Layout} {fd : Fd} (h : Fits s₀ t p₀ L p)
    (hL : L.Intact p₀.IsOpen fd) : p.descriptors.get? fd = p₀.descriptors.get? fd := by
  have hd := h fd
  obtain hL | ⟨hL, ho⟩ := hL
  · rw [hL] at hd
    refine hd.trans ?_
    cases p₀.descriptors.get? fd <;> rfl
  · rw [hL] at hd
    have hnone : p₀.descriptors.get? fd = none := Decidable.not_not.1 ho
    rw [hnone]
    exact hd

theorem of_chdir_mem {status : UInt8} {es : List Event} {path : Bytes}
    (h : (evalLine s l).Returns es status) (hm : (⟨.chdir path, .ok ()⟩ : Event) ∈ es) :
    ∃ c, l.MovesShell c ∧ es = [⟨.chdir (c.arguments.headD (Bytes.ofAscii ".")), .ok ()⟩] := by
  have hmakes := makes_of_reaches_evalLine h (own_of_returns_evalLine h) _ hm
  obtain ⟨c, hc, hpath⟩ : ∃ c, l.MovesShell c ∧
      path = c.arguments.headD (Bytes.ofAscii ".") := by
    cases hmakes with
    | conduct h => cases h
    | plumbing _ h => cases h
    | moves hc => exact ⟨_, hc, rfl⟩
  refine ⟨c, hc, ?_⟩
  rw [evalLine_of_movesShell hc, returns_changeDirectory_iff] at h
  cases h with
  | changed => rfl
  | refused => cases List.mem_singleton.1 hm
  | invalid => cases hm

theorem not_image_of_reaches {es : List Event} (ho : Own es)
    (hn : ∀ fs r, fs <+: es → ¬(eval s l).Returns fs r) {path : Bytes} {argv : List Bytes}
    {again : (Syscall.exec path argv).Reply → Bool}
    {k : (Syscall.exec path argv).Reply → Program ρ} :
    ¬(eval s l >>= rest).Reaches es (.call (.exec path argv) again k) := by
  intro hr
  have hcalls : (eval s l).Calls l.Makes InShell false := calls_eval fun _ _ h => h
  obtain hc | ⟨r, fs, gs, rfl, hret⟩ := hcalls.of_reaches_call hr
  · rw [inChild_eq_false_iff.2 ho] at hc
    cases hc with
    | conduct h => cases h
    | plumbing _ h => cases h
  · exact hn fs r (List.prefix_append fs gs) hret

theorem endsShell_of_exits {es : List Event} (ho : Own es)
    (hn : ∀ fs r, fs <+: es → ¬(eval s l).Returns fs r) {code : Int32}
    (h : (eval s l >>= rest).Exits es code) :
    ∃ c, l.EndsShell c ∧ code = ExitCode.ofArguments c.arguments := by
  obtain hx | ⟨r, fs, gs, rfl, hret, -⟩ := exits_bind_iff.1 h
  · rw [eval, exits_bind_iff] at hx
    obtain hx | ⟨n, fs, gs, -, -, hx⟩ := hx
    · exact ((exits_evalLine_iff ho).1 hx).2
    · exact absurd hx exits_done_iff
  · exact absurd hret (hn fs r (List.prefix_append fs gs))

/-- Evaluation leaves the shell as it is, whatever the line is and however its calls are answered.
When it returns, the shell has the descriptors that it had before; it has the directory that it had
before unless the line is a `cd` that it carried out itself and with success; and it goes on with
the status and a state that differs in the last status alone. Before it returns the shell neither
becomes another program nor ends by itself, unless the line is an `exit` that it carries out itself.
-/
theorem eval_leaves_intact (h : Run m s₀ H t) (hs : s₀.Numbered) (h₀ : s₀.process? sh = some p₀)
    (hc : p₀.control = .code (eval s l >>= rest)) (hp : t.process? sh = some p) :
    (∀ status s', p.control.isCode = true → (eval s l).Returns (H sh).code (status, s') →
      (∀ fd, p.descriptors.get? fd = p₀.descriptors.get? fd) ∧
      (p.directory = p₀.directory ∨ ∃ c, l.MovesShell c ∧
        (H sh).code = [⟨.chdir (c.arguments.headD (Bytes.ofAscii ".")), .ok ()⟩]) ∧
      s' = { s with lastStatus := status } ∧ p.control = .code (rest (status, s'))) ∧
    ((∀ es r, es <+: (H sh).code → ¬(eval s l).Returns es r) →
      p.control.isImage = false ∧ ∀ n, p.control = .ended (.exited n) →
        ∃ c, l.EndsShell c ∧ n = ExitCode.status (ExitCode.ofArguments c.arguments)) := by
  obtain ⟨hroot, hown⟩ := h.native.2 sh (hs sh p₀ h₀)
  have hx : Executes (eval s l >>= rest) (H sh) p := h.executes hs hp (hroot.symm ▸ h₀) hc
  obtain ⟨p₁, h₁, hd⟩ := h.descends hs hp
  obtain rfl : p₀ = p₁ := by
    rw [hroot, h₀] at h₁
    exact Option.some.inj h₁
  have ho : Own (H sh).code := (own_append.1 hown).1
  constructor
  · intro status s' hcode hret
    obtain ⟨hline, hs'⟩ := returns_eval_iff.1 hret
    obtain ⟨himage, hfits, hfresh⟩ := hd.code hcode
    have hevents : (H sh).events = (H sh).code := by simp [Past.events, himage]
    refine ⟨fun fd => ?_, ?_, hs', ?_⟩
    · exact hfits.eq_of_intact ((frame_evalLine hline hfresh).intact fd List.not_mem_nil)
    · obtain hdir | ⟨path, hm⟩ := hd.directory
      · exact .inl hdir
      · exact .inr (of_chdir_mem hline (hevents ▸ hm))
    · cases hq : p.control with
      | code q => rw [(hx.code q hq).1.unique (hret.bind rest), done_bind]
      | _ => rw [hq] at hcode; cases hcode
  · intro hn
    have himage : (H sh).image = none := by
      by_contra hi
      obtain ⟨path, argv, again, k, hr⟩ := hx.became hi
      exact not_image_of_reaches ho hn hr
    constructor
    · by_contra hi
      exact hx.image (by simpa using hi) himage
    · intro n hend
      obtain ⟨code, hexit, rfl⟩ := hx.exited n hend himage
      obtain ⟨c, hc, rfl⟩ := endsShell_of_exits ho hn hexit
      exact ⟨c, hc, rfl⟩

end Runs

/-- A pipeline whose stages are both killed, in a shell that has nothing open but its input; and an
`exit`. -/
theorem eval_leaves_intact_killed :
    let cat : Command := ⟨Bytes.ofAscii "cat", []⟩
    let exit3 : Command := ⟨Bytes.ofAscii "exit", [Bytes.ofAscii "3"]⟩
    let s := State.ofSearchPath none
    let m : Machine Unit := ⟨fun _ _ => (), fun _ => ⟨.clock, fun _ => ()⟩⟩
    let ds : Table Descriptor := Table.empty.set 0 ⟨0, false⟩
    let process (parent : Pid) (q : Program (UInt8 × State)) (ds : Table Descriptor) :
      Process Unit (UInt8 × State) :=
      ⟨parent, .code q, ds, 0, none, ⟨0, 0, false⟩, true, false, 16, none, none⟩
    let system (fs : Table OpenFile) (qs : Table Bytes)
      (ps : Table (Process Unit (UInt8 × State))) (next : Pid) : System Unit (UInt8 × State) :=
      ⟨⟨Table.empty⟩, fs, qs, 8, Table.empty, ps, next, 0⟩
    let fs : Table OpenFile := Table.empty.set 0 ⟨.source 0, true, false, false, 0⟩
    let boot (l : CommandLine) :=
      system fs Table.empty (Table.empty.set 1 (process 0 (eval s l) ds)) 2
    (∃ H t p, Run m (boot ⟨[.command cat, .pipe, .command cat], none⟩) H t ∧
      t.process? 1 = some p ∧ (∀ fd, p.descriptors.get? fd = ds.get? fd) ∧
      p.control = .code (done (137, { s with lastStatus := 137 }))) ∧
    ∃ H t p, Run m (boot ⟨[.command exit3], none⟩) H t ∧
      t.process? 1 = some p ∧ p.control = .ended (.exited 3) ∧
      ∃ c, CommandLine.EndsShell ⟨[.command exit3], none⟩ c ∧
        3 = ExitCode.status (ExitCode.ofArguments c.arguments) := by
  intro cat exit3 s m ds process system fs boot
  have hnumbered : ∀ l, (boot l).Numbered := by
    intro l pid p hp
    have hp := (Table.get?_set _ 1 pid _).symm.trans hp
    split at hp
    · subst pid
      exact Nat.one_lt_two
    · cases hp
  constructor
  · let l : CommandLine := ⟨[.command cat, .pipe, .command cat], none⟩
    -- the pipe has its ends at 1 and 2
    let piped := system
      ((fs.set 1 ⟨.readEnd 0, true, false, false, 0⟩).set 2 ⟨.writeEnd 0, false, true, false, 0⟩)
      (Table.empty.set 0 [])
    let both := (ds.set 1 ⟨1, true⟩).set 2 ⟨2, true⟩
    let stages (p x y : Process Unit (UInt8 × State)) :=
      piped (((Table.empty.set 1 p).set 2 x).set 3 y) 4
    have h : Run m (boot l) _ (piped (Table.empty.set 1 (process 0 _ both)) 2) :=
      ((Run.start (m := m)).answered (rfl : (boot l).process? 1 = some _) rfl rfl :)
    have h : Run m (boot l) _
      (piped ((Table.empty.set 1 (process 0 _ both)).set 2 (process 1 _ both)) 3) :=
      (h.forked (rfl : System.process? _ 1 = some _) rfl rfl :)
    have h : Run m (boot l) _ (stages (process 0 _ both) (process 1 _ both) (process 1 _ both)) :=
      (h.forked (rfl : System.process? _ 1 = some _) rfl rfl :)
    have h : Run m (boot l) _
      (stages (process 0 _ (ds.set 2 ⟨2, true⟩)) (process 1 _ both) (process 1 _ both)) :=
      (h.answered (rfl : System.process? _ 1 = some _) rfl rfl :)
    have h : Run m (boot l) _ (stages (process 0 _ ds) (process 1 _ both) (process 1 _ both)) :=
      (h.answered (rfl : System.process? _ 1 = some _) rfl rfl :)
    have h : Run m (boot l) _
      (stages (process 0 _ ds) ((process 1 _ both).signaled 9) (process 1 _ both)) :=
      (h.signaled 2 9 :)
    have h : Run m (boot l) _ (stages (process 0 _ ds) ((process 1 _ both).signaled 9)
      ((process 1 _ both).signaled 9)) := (h.signaled 3 9 :)
    have h := (h.answered (rfl : System.process? _ 1 = some _) rfl rfl :)
    have h := (h.answered (rfl : System.process? _ 1 = some _) rfl rfl :)
    have hreturns : (eval s l).Returns [⟨.pipe, .ok (1, 2)⟩, ⟨.fork, .ok (.parent 2)⟩,
        ⟨.fork, .ok (.parent 3)⟩, ⟨.close 1, .ok ()⟩, ⟨.close 2, .ok ()⟩,
        ⟨.wait 2, .ok (.signaled 9)⟩, ⟨.wait 3, .ok (.signaled 9)⟩]
        (137, { s with lastStatus := 137 }) :=
      .next rfl (.next rfl (.next rfl (.next rfl (.next rfl (.next rfl (.next rfl (.refl _)))))))
    have hintact := eval_leaves_intact h (hnumbered l)
      (rfl : (boot l).process? 1 = some _) (congrArg Control.code (bind_done (eval s l)).symm) rfl
    obtain ⟨hds, -, -, hcontrol⟩ := hintact.1 _ _ rfl hreturns
    exact ⟨_, _, _, h, rfl, hds, hcontrol⟩
  · let l : CommandLine := ⟨[.command exit3], none⟩
    have h₁ := (Run.start (m := m)).exited (rfl : (boot l).process? 1 = some _) rfl
    have h := eval_leaves_intact h₁ (hnumbered l)
      (rfl : (boot l).process? 1 = some _) (congrArg Control.code (bind_done (eval s l)).symm) rfl
    obtain ⟨-, hend⟩ := h.2 fun es r he => by
      obtain rfl := List.prefix_nil.1 he
      intro hr
      cases reaches_nil_iff.1 hr
    exact ⟨_, _, _, h₁, rfl, rfl, hend 3 rfl⟩

end PipeShell
