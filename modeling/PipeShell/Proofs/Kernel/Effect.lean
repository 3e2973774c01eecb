import PipeShell.Proofs.Kernel.Growth
import PipeShell.Proofs.Program.Layout

/-! What a call does to the process that makes it. A few calls change descriptors, the working
directory or the effect of a broken pipe; the others, and most calls that fail, leave the process as
it is. Main statement: an answered call has its effect on its own process, and all that can happen
to another is a signal or that it is waited for (`answer_effect`). -/
namespace PipeShell

namespace System

variable {ι ρ : Type} {s s' : System ι ρ} {pid : Pid} {p p' : Process ι ρ}

/-- The effect of an event on the process to which it happens, when the system goes from `s` to
`s'`. -/
inductive Effect (s s' : System ι ρ) (p : Process ι ρ) : Event → Process ι ρ → Prop
  | neutral {e : Event} (h : e.isNeutral = true) (a : Option Alarm) :
      Effect s s' p e { p with alarm := a }
  | defaultBrokenPipe : Effect s s' p ⟨.defaultBrokenPipe, ()⟩ { p with ignoresBrokenPipe := false }
  | pipe {r w : Fd} {i j q : Nat} {f g : OpenFile} (hr : p.descriptors.get? r = none)
      (hw : p.descriptors.get? w = none) (hne : r ≠ w) (hi : s.openFiles.above ≤ i)
      (hj : s.openFiles.above ≤ j) (hf : s'.openFiles.get? i = some f)
      (hg : s'.openFiles.get? j = some g) (hfr : f.resource = .readEnd q)
      (hgw : g.resource = .writeEnd q) : Effect s s' p ⟨.pipe, .ok (r, w)⟩
        { p with descriptors := (p.descriptors.set r ⟨i, true⟩).set w ⟨j, true⟩ }
  | dup2 {a b : Fd} {d : Descriptor} (ha : p.descriptors.get? a = some d) :
      Effect s s' p ⟨.dup2 a b, .ok ()⟩
        { p with descriptors := if a = b then p.descriptors
            else p.descriptors.set b { d with closeOnExec := false } }
  | close {fd : Fd} {r : Except Errno Unit} {t : Table Descriptor}
      (h : ∀ k, t.get? k = if k = fd then none else p.descriptors.get? k) :
      Effect s s' p ⟨.close fd, r⟩ { p with descriptors := t }
  | openFile {path : Bytes} {mode : OpenMode} {fd : Fd} {n i : Nat}
      (hfd : p.descriptors.get? fd = none) (hn : s.openFiles.above ≤ n)
      (hf : s'.openFiles.get? n = some (mode.openFile i)) :
      Effect s s' p ⟨.openFile path mode, .ok fd⟩
        { p with descriptors := p.descriptors.set fd ⟨n, true⟩ }
  | chdir {path : Bytes} {i : Nat} : Effect s s' p ⟨.chdir path, .ok ()⟩ { p with directory := i }

namespace Effect

variable {e : Event} (h : Effect s s' p e p')
include h

theorem control_eq : p'.control = p.control := by
  cases h <;> rfl

theorem directory_eq_or : p'.directory = p.directory ∨ ∃ path, e = ⟨.chdir path, .ok ()⟩ := by
  cases h with
  | chdir => exact .inr ⟨_, rfl⟩
  | _ => exact .inl rfl

theorem ignoresBrokenPipe_eq_false
    (hp : p.ignoresBrokenPipe = false ∨ e = ⟨.defaultBrokenPipe, ()⟩) :
    p'.ignoresBrokenPipe = false := by
  cases h with
  | defaultBrokenPipe => rfl
  | neutral hn =>
    obtain hp | rfl := hp
    · exact hp
    · cases hn
  | _ => exact hp.resolve_right nofun

end Effect

/-- Every process of `s'` comes from one of `s`, which may have been sent a signal, but process
`pid` comes from `p'`. -/
def Follows (s s' : System ι ρ) (pid : Pid) (p' : Process ι ρ) : Prop :=
  ∀ q y, s'.process? q = some y → ∃ x, (if q = pid then x = p' else s.process? q = some x) ∧
    (y = x ∨ ∃ n, y = x.signaled n)

theorem follows_of_eq (hp : s.process? pid = some p) (h : s'.processes = s.processes) :
    Follows s s' pid p := by
  intro q y hy
  rw [process?, h] at hy
  refine ⟨y, ?_, .inl rfl⟩
  split
  · rename_i hq
    subst hq
    exact Option.some.inj (hy.symm.trans hp)
  · exact hy

theorem follows_setProcess (s : System ι ρ) (pid : Pid) (p' : Process ι ρ) :
    Follows s (s.setProcess pid p') pid p' := by
  intro q y hy
  rw [process?_setProcess] at hy
  refine ⟨y, ?_, .inl rfl⟩
  split
  · rename_i hq
    rw [if_pos hq] at hy
    exact (Option.some.inj hy).symm
  · rename_i hq
    rwa [if_neg hq] at hy

theorem follows_modifyProcess_signaled (hp : s.process? pid = some p) (target : Pid) (n : Signal) :
    Follows s (s.modifyProcess target (·.signaled n)) pid p := by
  intro q y hy
  rw [process?_modifyProcess] at hy
  have hx : ∃ x, s.process? q = some x ∧ (y = x ∨ ∃ n, y = x.signaled n) := by
    split at hy
    · obtain ⟨x, hx, rfl⟩ := Option.map_eq_some_iff.1 hy
      exact ⟨x, hx, .inr ⟨n, rfl⟩⟩
    · exact ⟨y, hy, .inl rfl⟩
  obtain ⟨x, hx, hy⟩ := hx
  refine ⟨x, ?_, hy⟩
  split
  · rename_i hq
    subst hq
    exact Option.some.inj (hx.symm.trans hp)
  · exact hx

theorem follows_erase (hp : s.process? pid = some p) (child : Pid)
    (h : s'.processes = s.processes.erase child) : Follows s s' pid p := by
  intro q y hy
  have hx : s.process? q = some y := by
    rw [process?, h, Table.get?_erase] at hy
    split at hy
    · cases hy
    · exact hy
  refine ⟨y, ?_, .inl rfl⟩
  split
  · rename_i hq
    subst hq
    exact Option.some.inj (hx.symm.trans hp)
  · exact hx

theorem neutral_self {e : Event} (h : e.isNeutral = true) : Effect s s' p e p := .neutral h p.alarm

theorem get?_freeDescriptor? {fd : Fd} (h : p.freeDescriptor? = some fd) :
    p.descriptors.get? fd = none := by
  simp only [Process.freeDescriptor?] at h
  split at h
  · obtain rfl := Option.some.inj h
    exact Table.get?_lowestFree _
  · cases h

structure Answered (s s' : System ι ρ) (pid : Pid) (p : Process ι ρ) (e : Event) : Prop where
  grown : Grown s s'
  nextPid : s'.nextPid = s.nextPid
  effect : ∃ p', Effect s s' p e p' ∧ Follows s s' pid p'

theorem answered_neutral {e : Event} (hp : s.process? pid = some p) (h : e.isNeutral = true)
    (hg : Grown s s') (hs : s'.processes = s.processes) (hn : s'.nextPid = s.nextPid) :
    Answered s s' pid p e := ⟨hg, hn, p, neutral_self h, follows_of_eq hp hs⟩

theorem answered_self {e : Event} (hp : s.process? pid = some p) (h : e.isNeutral = true) :
    Answered s s pid p e := answered_neutral hp h (.refl s) rfl rfl

theorem answered_setProcess {e : Event} (h : Effect s (s.setProcess pid p') p e p') :
    Answered s (s.setProcess pid p') pid p e :=
  ⟨.of_eq rfl rfl, rfl, p', h, follows_setProcess s pid p'⟩

theorem dup2_eq_ok {a b : Fd} {q : Process ι ρ} (h : p.dup2 a b = .ok q) :
    ∃ d, p.descriptors.get? a = some d ∧ q = { p with
      descriptors := if a = b then p.descriptors
        else p.descriptors.set b { d with closeOnExec := false } } := by
  unfold Process.dup2 at h
  split at h
  · cases h
  · rename_i d hd
    refine ⟨d, hd, ?_⟩
    split at h
    · cases h
    · split at h
      · rename_i hab
        cases h
        simp [hab]
      · rename_i hab
        cases h
        simp [hab]

theorem chdir_eq_ok {t : FileTree} {path : Bytes} {q : Process ι ρ} (h : p.chdir t path = .ok q) :
    ∃ i, q = { p with directory := i } := by
  unfold Process.chdir at h
  cases hf : t.find p.credentials p.directory path with
  | error e => rw [hf] at h; cases h
  | ok x =>
    obtain ⟨i, inode⟩ := x
    rw [hf] at h
    refine ⟨i, ?_⟩
    simp only [bind, Except.bind] at h
    cases hd : inode.isDirectory <;> cases hg : inode.grants p.credentials .execute <;>
      (simp only [hd, hg] at h; cases h)
    rfl

theorem answered_wait {child : Pid} {r : Except Errno Termination}
    (h : s.wait pid p child = some (r, s')) (hp : s.process? pid = some p) :
    Answered s s' pid p ⟨.wait child, r⟩ := by
  unfold wait at h
  split at h
  · cases h; exact answered_self hp rfl
  · split at h
    · cases h; exact answered_self hp rfl
    · split at h
      · cases h
        exact ⟨.of_eq rfl rfl, rfl, p, neutral_self rfl, follows_erase hp child rfl⟩
      · split at h
        · cases h
        · split at h
          · cases h
            exact answered_setProcess (.neutral rfl _)
          · cases h

theorem answered_pipe {r w : Fd} (h : s.openPipe pid p = .ok (s', r, w)) :
    Answered s s' pid p ⟨.pipe, .ok (r, w)⟩ := by
  have hg := grown_openPipe h
  obtain ⟨hr, hw, rfl⟩ := openPipe_eq_ok h
  have hw' := get?_freeDescriptor? hw
  rw [Table.get?_set] at hw'
  split at hw'
  · cases hw'
  · rename_i hne
    let f : OpenFile := ⟨.readEnd s.pipes.above, true, false, false, 0⟩
    let g : OpenFile := ⟨.writeEnd s.pipes.above, false, true, false, 0⟩
    let fs := s.openFiles.set s.openFiles.above f
    have hlt : s.openFiles.above < fs.above := Table.above_lt_set s.openFiles f
    have hf : (fs.set fs.above g).get? s.openFiles.above = some f := by
      rw [Table.get?_set, if_neg (Nat.ne_of_lt hlt), Table.get?_set, if_pos rfl]
    have hg' : (fs.set fs.above g).get? fs.above = some g :=
      (Table.get?_set _ _ _ g).trans (if_pos rfl)
    exact ⟨hg, rfl, _, .pipe (get?_freeDescriptor? hr) hw' (Ne.symm hne) (Nat.le_refl _)
      (Nat.le_of_lt hlt) hf hg' rfl rfl, follows_setProcess _ pid _⟩

theorem answered_openFile {path : Bytes} {mode : OpenMode} {fd : Fd}
    (h : s.openPath pid p path mode = .ok (s', fd)) :
    Answered s s' pid p ⟨.openFile path mode, .ok fd⟩ := by
  have hg := grown_openPath h
  obtain ⟨hfd, files, i, -, rfl⟩ := openPath_eq_ok h
  refine ⟨hg, rfl, _, .openFile (i := i) (get?_freeDescriptor? hfd) (Nat.le_refl _) ?_,
    follows_setProcess _ pid _⟩
  simp [setProcess, addOpenFile]

theorem answer_effect {c : Syscall} {r : c.Reply} (h : s.answer pid p c = some (r, s'))
    (hp : s.process? pid = some p) : Answered s s' pid p ⟨c, r⟩ := by
  cases c with
  | exit code => cases h
  | pause => cases h
  | fork =>
    simp only [answer] at h
    split at h
    · cases h
    · cases h; exact answered_self hp rfl
  | exec path argv =>
    simp only [answer] at h
    split at h
    · cases h; exact answered_self hp rfl
    · cases h
  | isOpen | isTerminal | stat | workingDirectory | access | listDirectory | environmentPath
  | processId | clock => cases h; exact answered_self hp rfl
  | sleepUntil time =>
    simp only [answer] at h
    split at h
    · cases h; exact answered_self hp rfl
    · cases h
  | interval period => cases h; exact answered_setProcess (.neutral rfl _)
  | defaultBrokenPipe => cases h; exact answered_setProcess .defaultBrokenPipe
  | read fd n =>
    obtain ⟨hg, hs, hn⟩ := read_eq_some h
    exact answered_neutral hp rfl hg hs hn
  | write fd data =>
    obtain ⟨h, -⟩ := Option.filter_eq_some_iff.1 h
    obtain ⟨hg, hs, hn⟩ := write_eq_some h
    exact answered_neutral hp rfl hg hs hn
  | close fd =>
    have hc := Option.some.inj h
    split at hc
    · cases hc
      exact answered_setProcess (.close fun k => Table.get?_erase _ _ _)
    · rename_i hfd
      cases hc
      have hnone : p.descriptors.get? fd = none := by simpa [Table.contains] using hfd
      refine ⟨.refl s, rfl, p, .close (t := p.descriptors) fun k => ?_, follows_of_eq hp rfl⟩
      split
      · rename_i hk
        rw [hk, hnone]
      · rfl
  | dup2 a b =>
    have hc := Option.some.inj h
    cases hd : p.dup2 a b with
    | error e =>
      rw [hd] at hc
      cases hc
      exact answered_self hp rfl
    | ok q =>
      rw [hd] at hc
      cases hc
      obtain ⟨d, ha, rfl⟩ := dup2_eq_ok hd
      exact answered_setProcess (.dup2 ha)
  | chdir path =>
    have hc := Option.some.inj h
    cases hd : p.chdir s.files path with
    | error e =>
      rw [hd] at hc
      cases hc
      exact answered_self hp rfl
    | ok q =>
      rw [hd] at hc
      cases hc
      obtain ⟨i, rfl⟩ := chdir_eq_ok hd
      exact answered_setProcess .chdir
  | openFile path mode =>
    have hc := Option.some.inj h
    cases ho : s.openPath pid p path mode with
    | error e =>
      rw [ho] at hc
      cases hc
      exact answered_self hp rfl
    | ok x =>
      rw [ho] at hc
      cases hc
      exact answered_openFile ho
  | pipe =>
    have hc := Option.some.inj h
    cases ho : s.openPipe pid p with
    | error e =>
      rw [ho] at hc
      cases hc
      exact answered_self hp rfl
    | ok x =>
      rw [ho] at hc
      cases hc
      exact answered_pipe ho
  | kill target n =>
    have hc := Option.some.inj h
    split at hc
    · cases hc
      exact answered_self hp rfl
    · split at hc
      · cases hc
        exact answered_self hp rfl
      · cases hc
        refine ⟨grown_modifyProcess s target _, ?_, p, neutral_self rfl,
          follows_modifyProcess_signaled hp target n⟩
        unfold modifyProcess
        split <;> rfl
  | wait child => exact answered_wait h hp

end System

end PipeShell
