import PipeShell.Proofs.Kernel.Names
import PipeShell.Proofs.Kernel.Restart

/-! Chronicles. A chronicle is a run of which it is written down, in the order of time and for all
processes, which files were opened for output, what was written to which open file, and what code
had as its standard output when it became a program. Nothing changes the files in it but what
processes do. Main statements: what an answered call does to files and open files
(`change_of_answer`), what has been opened is written down (`Chronicle.noted`), and who has an open
file after a step (`Move.hasOpen`). -/
namespace PipeShell

/-- What is written down of a step. Open files have numbers of their own. -/
inductive Note
  | opened (pid : Pid) (path : Bytes) (mode : RedirectMode) (openFile : Nat)
  | wrote (openFile : Nat) (data : Bytes)
  /-- process `pid` becomes a program, with an open file as its standard output -/
  | launched (pid : Pid) (openFile : Option Nat)
  deriving DecidableEq, Repr

variable {ι ρ : Type}

namespace System

def notes (s : System ι ρ) (pid : Pid) (p : Process ι ρ) : Event → List Note
  | ⟨.openFile path (.create mode), r⟩ => match (r : Except Errno Fd) with
    | .ok _ => [.opened pid path mode s.openFiles.above]
    | .error _ => []
  | ⟨.write fd data, r⟩ => match (r : Except Errno Nat), s.openFile? p fd with
    | .ok count, some (n, _) => [.wrote n (data.take count)]
    | _, _ => []
  | _ => []

def launches (s s' : System ι ρ) : List Note := s.processes.entries.filterMap fun (pid, p) =>
  match s'.process? pid with
  | some p' => if p.control.isCode && p'.control.isImage then
      some (.launched pid ((p'.descriptors.get? Fd.stdout).map Descriptor.openFile))
    else none
  | none => none

theorem mem_launches {s s' : System ι ρ} {note : Note} : note ∈ s.launches s' ↔ ∃ pid p p',
    s.process? pid = some p ∧ p.control.isCode = true ∧ s'.process? pid = some p' ∧
      p'.control.isImage = true ∧
      note = .launched pid ((p'.descriptors.get? Fd.stdout).map Descriptor.openFile) := by
  simp only [launches, List.mem_filterMap, Prod.exists]
  constructor
  · rintro ⟨pid, p, hp, h⟩
    split at h
    · split at h
      · rename_i p' hp' hc
        rw [Bool.and_eq_true] at hc
        exact ⟨pid, p, p', (Table.get?_eq_some_iff _ _ _).2 hp, hc.1, hp', hc.2,
          (Option.some.inj h).symm⟩
      · cases h
    · cases h
  · rintro ⟨pid, p, p', hp, hc, hp', hi, rfl⟩
    refine ⟨pid, p, (Table.get?_eq_some_iff _ _ _).1 hp, ?_⟩
    rw [hp']
    simp [hc, hi]

end System

/-- One step with what is written down of it. From outside come signals and input, but nothing that
changes files. -/
inductive Deed (m : Machine ι) (H : Pid → Past) (s : System ι ρ) :
    List Note → (Pid → Past) → System ι ρ → Prop
  | answered {s' : System ι ρ} {pid : Pid} {p : Process ι ρ} {c : Syscall}
      {k : c.Reply → Control ι ρ} {r : c.Reply} (hp : s.process? pid = some p)
      (hn : p.next? m = some ⟨c, k⟩) (ha : s.answer pid p c = some (r, s')) :
      Deed m H s (s.notes pid p ⟨c, r⟩)
        (Function.update H pid ((H pid).record p ⟨c, r⟩)) (s'.resume pid (k r))
  | other {H' : Pid → Past} {s' : System ι ρ} (hm : Move m H s H' s') (hf : s'.files = s.files)
      (ho : s'.openFiles = s.openFiles) : Deed m H s (s.launches s') H' s'

inductive Chronicle (m : Machine ι) (s₀ : System ι ρ) :
    List Note → (Pid → Past) → System ι ρ → Prop
  | start : Chronicle m s₀ [] Past.start s₀
  | deed {ns ns' : List Note} {H H' : Pid → Past} {s s' : System ι ρ}
      (h : Chronicle m s₀ ns H s) (hd : Deed m H s ns' H' s') : Chronicle m s₀ (ns ++ ns') H' s'

variable {m : Machine ι} {s₀ s s' : System ι ρ} {H H' : Pid → Past} {pid q : Pid}
  {p y : Process ι ρ} {ns : List Note} {n : Nat}

theorem Deed.move (hd : Deed m H s ns H' s') : Move m H s H' s' := by
  cases hd with
  | answered hp hn ha => exact .answered hp hn ha
  | other hm => exact hm

theorem Chronicle.run (h : Chronicle m s₀ ns H s) : Run m s₀ H s := by
  induction h with
  | start => exact .start
  | deed _ hd ih => exact ih.move hd.move

namespace System

@[simp] theorem files_modifyProcess (s : System ι ρ) (pid : Pid) (f : Process ι ρ → Process ι ρ) :
    (s.modifyProcess pid f).files = s.files := by
  unfold modifyProcess
  split <;> rfl

@[simp] theorem openFiles_modifyProcess (s : System ι ρ) (pid : Pid)
    (f : Process ι ρ → Process ι ρ) : (s.modifyProcess pid f).openFiles = s.openFiles := by
  unfold modifyProcess
  split <;> rfl

end System

def OpenFile.start (f : OpenFile) (old : Bytes) : Nat :=
  if f.appends then old.length else f.position

namespace System

theorem write_cases {fd : Fd} {data : Bytes} {r : Except Errno Nat}
    (h : s.write p fd data = some (r, s')) : (∃ e, r = .error e ∧ s' = s) ∨
      ∃ n f, s.openFile? p fd = some (n, f) ∧ f.writable = true ∧
        ((∃ i old, f.resource = .file i ∧ s.files.regular? i = some old ∧ r = .ok data.length ∧
          s'.files = s.files.setContent i (.regular (old.overwrite (f.start old) data)) ∧
          s'.openFiles = s.openFiles.set n { f with position := f.start old + data.length }) ∨
        ∃ count, r = .ok count ∧ s'.files = s.files ∧ s'.openFiles = s.openFiles ∧
          (data.take count = [] ∨ ∀ i, f.resource = .file i → s.files.regular? i = none)) := by
  unfold write at h
  cases ho : s.openFile? p fd with
  | none =>
    rw [ho] at h
    cases h
    exact .inl ⟨_, rfl, rfl⟩
  | some x =>
    obtain ⟨n, f⟩ := x
    simp only [ho] at h
    split at h
    · cases h
      exact .inl ⟨_, rfl, rfl⟩
    · rename_i hw
      have hw : f.writable = true := by simpa using hw
      split at h
      · cases h
        exact .inr ⟨n, f, rfl, hw, .inr ⟨0, rfl, rfl, rfl, .inl rfl⟩⟩
      · split at h
        · rename_i i hr
          have h := Option.some.inj h
          unfold writeFile at h
          split at h
          · rename_i old hi
            cases h
            exact .inr ⟨n, f, rfl, hw, .inl ⟨i, old, hr,
              FileTree.map_content_eq_regular_iff.1 hi, rfl, rfl, rfl⟩⟩
          · cases h
            exact .inl ⟨_, rfl, rfl⟩
          · rename_i hregular _
            cases h
            refine .inr ⟨n, f, rfl, hw, .inr ⟨_, rfl, rfl, rfl, .inr fun j hj => ?_⟩⟩
            obtain rfl := Resource.file.inj (hr.symm.trans hj)
            refine Option.eq_none_iff_forall_ne_some.2 fun old hold => ?_
            exact hregular old (FileTree.map_content_eq_regular_iff.2 hold)
        · rename_i hr
          split at h
          · cases h
            exact .inl ⟨_, rfl, rfl⟩
          · split at h
            · cases h
            · cases h
              refine .inr ⟨n, f, rfl, hw, .inr ⟨_, rfl, rfl, rfl, .inr fun j hj => ?_⟩⟩
              rw [hr] at hj
              cases hj
        · cases h
          exact .inl ⟨_, rfl, rfl⟩

end System

def Note.IsIdle (s : System ι ρ) : Note → Prop
  | .opened _ _ _ _ => False
  | .launched _ _ => True
  | .wrote n data => data = [] ∨ ∀ f i, s.openFiles.get? n = some f → f.resource = .file i →
      s.files.regular? i = none

namespace System

/-- Whether files are as before, and so are open files but for the position in those that are
read. -/
structure Quiet (s s' : System ι ρ) : Prop where
  files : s'.files = s.files
  kept : ∀ n f, s.openFiles.get? n = some f → f.readable = false → s'.openFiles.get? n = some f
  added : ∀ n f i, s'.openFiles.get? n = some f → f.resource = .file i →
    ∃ position, s.openFiles.get? n = some { f with position }

theorem Quiet.of_eq (hf : s'.files = s.files) (ho : s'.openFiles = s.openFiles) : Quiet s s' where
  files := hf
  kept _ _ h _ := ho ▸ h
  added _ f _ h _ := ⟨f.position, ho ▸ h⟩

/-- What an event of process `pid` does to files when the system goes from `s` to `s'`. -/
inductive Change (s s' : System ι ρ) (pid : Pid) (p : Process ι ρ) : Event → List Note → Prop
  | quiet {e : Event} {ns : List Note} (h : Quiet s s') (hn : ∀ note ∈ ns, note.IsIdle s) :
      Change s s' pid p e ns
  | opened {path : Bytes} {mode : OpenMode} {fd : Fd} {i : Nat}
      (h : s.files.openAs p.credentials p.directory path mode = .ok (s'.files, i))
      (ho : s'.openFiles = s.openFiles.set s.openFiles.above (mode.openFile i)) :
      Change s s' pid p ⟨.openFile path mode, .ok fd⟩
        (s.notes pid p ⟨.openFile path mode, .ok fd⟩)
  | wrote {fd : Fd} {data old : Bytes} {n i : Nat} {f : OpenFile}
      (h : s.openFile? p fd = some (n, f)) (hw : f.writable = true) (hr : f.resource = .file i)
      (hi : s.files.regular? i = some old)
      (hf : s'.files = s.files.setContent i (.regular (old.overwrite (f.start old) data)))
      (ho : s'.openFiles = s.openFiles.set n { f with position := f.start old + data.length }) :
      Change s s' pid p ⟨.write fd data, .ok data.length⟩ [.wrote n data]

theorem quiet_of_read {fd : Fd} {count : Nat} {r : Except Errno Bytes}
    (h : s.read p fd count = some (r, s')) : Quiet s s' := by
  unfold read at h
  cases ho : s.openFile? p fd with
  | none =>
    rw [ho] at h
    cases h
    exact .of_eq rfl rfl
  | some x =>
    obtain ⟨n, f⟩ := x
    obtain ⟨d, -, -, hf⟩ := (openFile?_eq_some_iff s p fd n f).1 ho
    simp only [ho] at h
    split at h
    · cases h
      exact .of_eq rfl rfl
    · rename_i hr
      have hr : f.readable = true := by simpa using hr
      split at h
      · split at h
        · cases h
          exact .of_eq rfl rfl
        · -- the position moves on in an open file that is read
          cases h
          refine ⟨rfl, fun k g hg hg' => ?_, fun k g i hg _ => ?_⟩
          · have hk : k ≠ n := by
              rintro rfl
              obtain rfl := Option.some.inj (hf.symm.trans hg)
              rw [hr] at hg'
              cases hg'
            rw [Table.get?_set, if_neg hk]
            exact hg
          · rw [Table.get?_set] at hg
            split at hg
            · obtain rfl := Option.some.inj hg
              exact ⟨f.position, ‹k = n› ▸ hf⟩
            · exact ⟨g.position, hg⟩
      · split at h
        · split at h
          · cases h
          · cases h
            exact .of_eq rfl rfl
        · cases h
          exact .of_eq rfl rfl
      · split at h
        · cases h
          exact .of_eq rfl rfl
        · split at h
          · split at h
            · cases h
              exact .of_eq rfl rfl
            · cases h
          · cases h
            exact .of_eq rfl rfl
      · cases h
        exact .of_eq rfl rfl

theorem quiet_of_openPipe {r w : Fd} (h : s.openPipe pid p = .ok (s', r, w)) : Quiet s s' := by
  obtain ⟨-, -, rfl⟩ := openPipe_eq_ok h
  have hnew : ∀ (fs : Table OpenFile) (f : OpenFile), (∀ i, f.resource ≠ .file i) →
      (∀ n g, s.openFiles.get? n = some g → fs.get? n = some g) →
      (∀ n g i, fs.get? n = some g → g.resource = .file i → s.openFiles.get? n = some g) →
      (∀ n g, s.openFiles.get? n = some g → (fs.set fs.above f).get? n = some g) ∧
      ∀ n g i, (fs.set fs.above f).get? n = some g → g.resource = .file i →
        s.openFiles.get? n = some g := by
    intro fs f hf hkept hadded
    refine ⟨fun n g hg => ?_, fun n g i hg hi => ?_⟩
    · have hn := Table.lt_above_of_get?_eq_some (hkept n g hg)
      rw [Table.get?_set, if_neg (Nat.ne_of_lt hn)]
      exact hkept n g hg
    · rw [Table.get?_set] at hg
      split at hg
      · obtain rfl := Option.some.inj hg
        exact absurd hi (hf i)
      · exact hadded n g i hg hi
  obtain ⟨hkept, hadded⟩ := hnew s.openFiles ⟨.readEnd s.pipes.above, true, false, false, 0⟩
    nofun (fun _ _ h => h) fun _ _ _ h _ => h
  obtain ⟨hkept, hadded⟩ := hnew _ ⟨.writeEnd s.pipes.above, false, true, false, 0⟩ nofun hkept
    hadded
  exact ⟨rfl, fun n f h _ => hkept n f h, fun n f i h hi => ⟨f.position, hadded n f i h hi⟩⟩

theorem quiet_of_wait {child : Pid} {r : Except Errno Termination}
    (h : s.wait pid p child = some (r, s')) : Quiet s s' := by
  unfold wait at h
  split at h
  · cases h
    exact .of_eq rfl rfl
  · split at h
    · cases h
      exact .of_eq rfl rfl
    · split at h
      · cases h
        exact .of_eq rfl rfl
      · split at h
        · cases h
        · split at h
          · cases h
            exact .of_eq rfl rfl
          · cases h

theorem change_of_write {fd : Fd} {data : Bytes} {r : Except Errno Nat}
    (h : s.write p fd data = some (r, s')) :
    Change s s' pid p ⟨.write fd data, r⟩ (s.notes pid p ⟨.write fd data, r⟩) := by
  obtain ⟨e, rfl, rfl⟩ | ⟨n, f, ho, hw, ⟨i, old, hr, hi, rfl, hf, hs⟩ |
    ⟨count, rfl, hf, hs, hidle⟩⟩ := write_cases h
  · exact .quiet (.of_eq rfl rfl) nofun
  · have hnotes : s.notes pid p ⟨.write fd data, .ok data.length⟩ = [.wrote n data] := by
      simp [notes, ho]
    rw [hnotes]
    exact .wrote ho hw hr hi hf hs
  · have hnotes : s.notes pid p ⟨.write fd data, .ok count⟩ = [.wrote n (data.take count)] := by
      simp [notes, ho]
    obtain ⟨d, -, -, hn⟩ := (openFile?_eq_some_iff s p fd n f).1 ho
    refine .quiet (.of_eq hf hs) fun note hm => ?_
    rw [hnotes, List.mem_singleton] at hm
    subst hm
    refine hidle.imp_right fun hnone g i hg hi => ?_
    obtain rfl := Option.some.inj (hn.symm.trans hg)
    exact hnone i hi

theorem opened_of_answer {path : Bytes} {mode : OpenMode} {fd : Fd}
    (h : s.answer pid p (.openFile path mode) = some (.ok fd, s')) : ∃ i,
      s.files.openAs p.credentials p.directory path mode = .ok (s'.files, i) ∧
        s'.openFiles = s.openFiles.set s.openFiles.above (mode.openFile i) := by
  obtain ⟨-, files, i, ho, rfl⟩ := openPath_eq_ok (openPath_of_answer h)
  exact ⟨i, ho, rfl⟩

theorem change_of_answer {c : Syscall} {r : c.Reply} (h : s.answer pid p c = some (r, s')) :
    Change s s' pid p ⟨c, r⟩ (s.notes pid p ⟨c, r⟩) := by
  have hsame : s'.files = s.files → s'.openFiles = s.openFiles → s.notes pid p ⟨c, r⟩ = [] →
      Change s s' pid p ⟨c, r⟩ (s.notes pid p ⟨c, r⟩) := by
    intro hf ho hn
    rw [hn]
    exact .quiet (.of_eq hf ho) (by simp)
  cases c with
  | exit | pause => cases h
  | fork =>
    simp only [answer] at h
    split at h <;> cases h
    exact hsame rfl rfl rfl
  | exec path argv =>
    simp only [answer] at h
    split at h <;> cases h
    exact hsame rfl rfl rfl
  | isOpen | isTerminal | stat | workingDirectory | access | listDirectory | environmentPath
  | processId | clock | interval | defaultBrokenPipe => cases h; exact hsame rfl rfl rfl
  | sleepUntil time =>
    simp only [answer] at h
    split at h <;> cases h
    exact hsame rfl rfl rfl
  | read fd n => exact .quiet (quiet_of_read h) (by simp [notes])
  | write fd data => exact change_of_write (Option.filter_eq_some_iff.1 h).1
  | wait child => exact .quiet (quiet_of_wait h) (by simp [notes])
  | close fd =>
    have hc := Option.some.inj h
    split at hc <;> cases hc <;> exact hsame rfl rfl rfl
  | dup2 a b =>
    have hc := Option.some.inj h
    split at hc <;> cases hc <;> exact hsame rfl rfl rfl
  | chdir path =>
    have hc := Option.some.inj h
    split at hc <;> cases hc <;> exact hsame rfl rfl rfl
  | openFile path mode =>
    obtain e | fd := r
    · have hc := Option.some.inj h
      split at hc
      · cases hc
        refine .quiet (.of_eq rfl rfl) ?_
        cases mode <;> simp [notes]
      · cases hc
    · obtain ⟨i, hi, ho⟩ := opened_of_answer h
      exact .opened hi ho
  | pipe =>
    have hc := Option.some.inj h
    split at hc
    · cases hc
      exact hsame rfl rfl rfl
    · cases hc
      exact .quiet (quiet_of_openPipe ‹_›) (by simp [notes])
  | kill target n =>
    have hc := Option.some.inj h
    split at hc
    · cases hc
      exact hsame rfl rfl rfl
    · split at hc <;> cases hc
      · exact hsame rfl rfl rfl
      · exact hsame (files_modifyProcess _ _ _) (openFiles_modifyProcess _ _ _) rfl

theorem Change.of_eq {e : Event} {t : System ι ρ} (h : Change s s' pid p e ns)
    (hf : t.files = s'.files) (ho : t.openFiles = s'.openFiles) : Change s t pid p e ns := by
  cases h with
  | quiet h hn => exact .quiet ⟨hf.trans h.files, ho ▸ h.kept, ho ▸ h.added⟩ hn
  | opened h hset => exact .opened (hf ▸ h) (ho.trans hset)
  | wrote h hw hr hi hfiles hset => exact .wrote h hw hr hi (hf.trans hfiles) (ho.trans hset)

theorem exists_write_of_notes {e : Event} {k : Nat} {data : Bytes}
    (h : .wrote k data ∈ s.notes pid p e) :
    ∃ fd d g, e.call = .write fd d ∧ s.openFile? p fd = some (k, g) := by
  obtain ⟨c, r⟩ := e
  cases c with
  | openFile path mode =>
    cases mode with
    | create mode => obtain e | fd := r <;> simp [notes] at h
    | _ => cases h
  | write fd d =>
    obtain e | count := r
    · cases h
    · cases ho : s.openFile? p fd with
      | none =>
        simp only [notes, ho] at h
        cases h
      | some x =>
        obtain ⟨n, g⟩ := x
        simp only [notes, ho, List.mem_singleton, Note.wrote.injEq] at h
        exact ⟨fd, d, g, rfl, by rw [h.1, ho]⟩
  | _ => cases h

end System

theorem Past.mem_code_record {h : Past} {e e' : Event} (hm : e ∈ (h.record p e').code) :
    e ∈ h.code ∨ e = e' := by
  unfold record at hm
  split at hm
  · simpa using hm
  · exact .inl hm

namespace Chronicle

theorem lt_above (h : Chronicle m s₀ ns H s) {k : Nat} {data : Bytes}
    (hm : .wrote k data ∈ ns) : k < s.openFiles.above := by
  induction h with
  | start => cases hm
  | @deed ns ns' H H' s s' h hd ih =>
    have hgrown : s.openFiles.above ≤ s'.openFiles.above :=
      (Run.start.move (hd.move.restart.choose_spec.1)).grown.openFiles
    refine Nat.lt_of_lt_of_le ?_ hgrown
    obtain hm | hm := List.mem_append.1 hm
    · exact ih hm
    · cases hd with
      | @answered _ pid p c k r hp hn ha =>
        obtain ⟨fd, d, g, -, ho⟩ := System.exists_write_of_notes hm
        obtain ⟨-, -, -, hg⟩ := (System.openFile?_eq_some_iff s p fd _ g).1 ho
        exact Table.lt_above_of_get?_eq_some hg
      | other =>
        obtain ⟨pid, p, p', -, -, -, -, heq⟩ := System.mem_launches.1 hm
        cases heq

theorem noted (h : Chronicle m s₀ ns H s) {path : Bytes} {mode : RedirectMode} {fd : Fd}
    (hm : (⟨.openFile path (.create mode), .ok fd⟩ : Event) ∈ (H pid).code) :
    ∃ q n, .opened q path mode n ∈ ns := by
  induction h generalizing pid with
  | start => cases hm
  | @deed ns ns' H H' s s' h hd ih =>
    have hold : ∀ {pid}, (⟨.openFile path (.create mode), .ok fd⟩ : Event) ∈ (H pid).code →
        ∃ q n, .opened q path mode n ∈ ns ++ ns' := by
      intro pid hm
      obtain ⟨q, n, hm⟩ := ih hm
      exact ⟨q, n, List.mem_append_left _ hm⟩
    cases hd with
    | @answered _ pid' p c k r hp hn ha =>
      rw [Function.update_apply] at hm
      split at hm
      · obtain hm | he := Past.mem_code_record hm
        · exact hold hm
        · cases he
          exact ⟨pid', _, List.mem_append_right _ (List.mem_singleton_self _)⟩
      · exact hold hm
    | other hmove hf ho =>
      obtain ⟨pid', hm⟩ | ⟨pid', p, k, s₁, hp, ha, rfl⟩ | hr | hc := hmove.mem_code hm
      · exact hold hm
      · -- there would be one more open file
        obtain ⟨i, -, hset⟩ := System.opened_of_answer ha
        rw [System.resume, System.openFiles_modifyProcess, hset] at ho
        have habove := Table.get?_set s.openFiles s.openFiles.above s.openFiles.above
          ((OpenMode.create mode).openFile i)
        rw [ho, Table.get?_eq_none_of_above_le (Nat.le_refl _), if_pos rfl] at habove
        cases habove
      · cases hr
      · cases hc

end Chronicle

def Process.HasOpen (p : Process ι ρ) (n : Nat) : Prop :=
  ∃ fd d, p.descriptors.get? fd = some d ∧ d.openFile = n

theorem System.Touched.hasOpen {x y : Process ι ρ} (h : Touched x y) (hn : y.HasOpen n) :
    x.HasOpen n := by
  obtain rfl | ⟨b, rfl⟩ | ⟨k, rfl⟩ := h
  · exact hn
  · exact hn
  · obtain ⟨fd, d, hd, -⟩ := hn
    cases hd

theorem System.Effect.hasOpen {e : Event} {p' : Process ι ρ} (h : Effect s s' p e p')
    (hn : p'.HasOpen n) : p.HasOpen n ∨ s.openFiles.above ≤ n := by
  obtain ⟨fd, d, hd, rfl⟩ := hn
  have hset : ∀ {ds : Table Descriptor} {k : Fd} {d' : Descriptor},
      (ds.set k d').get? fd = some d → d = d' ∨ ds.get? fd = some d := by
    intro ds k d' hd
    rw [Table.get?_set] at hd
    split at hd
    · exact .inl (Option.some.inj hd).symm
    · exact .inr hd
  cases h with
  | neutral | defaultBrokenPipe | chdir => exact .inl ⟨fd, d, hd, rfl⟩
  | pipe hr hw hne hi hj =>
    obtain rfl | hd := hset hd
    · exact .inr hj
    · obtain rfl | hd := hset hd
      · exact .inr hi
      · exact .inl ⟨fd, d, hd, rfl⟩
  | @dup2 a b d' ha =>
    refine .inl ?_
    dsimp only at hd
    split at hd
    · exact ⟨fd, d, hd, rfl⟩
    · obtain rfl | hd := hset hd
      · exact ⟨a, d', ha, rfl⟩
      · exact ⟨fd, d, hd, rfl⟩
  | @close k r ds hds =>
    rw [hds] at hd
    split at hd
    · cases hd
    · exact .inl ⟨fd, d, hd, rfl⟩
  | openFile hfd hn =>
    obtain rfl | hd := hset hd
    · exact .inr hn
    · exact .inl ⟨fd, d, hd, rfl⟩

theorem System.Answered.hasOpen {e : Event} {c : Control ι ρ} (h : Answered s s' pid p e)
    (hp : s.process? pid = some p) (hy : (s'.resume pid c).process? q = some y)
    (hn : y.HasOpen n) :
    (∃ x, s.process? q = some x ∧ x.HasOpen n) ∨ q = pid ∧ s.openFiles.above ≤ n := by
  obtain ⟨-, -, p', he, hf⟩ := h
  obtain ⟨fd, d, hd, hdn⟩ := hn
  obtain ⟨z, hz, hzd⟩ := hf.descriptor hy hd
  split at hz
  · subst hz
    obtain hn | hn := he.hasOpen ⟨fd, d, hzd, hdn⟩
    · exact .inl ⟨p, ‹q = pid› ▸ hp, hn⟩
    · exact .inr ⟨‹q = pid›, hn⟩
  · exact .inl ⟨z, hz, fd, d, hzd, hdn⟩

theorem Move.hasOpen (hm : Move m H s H' s') (hy : s'.process? q = some y) (hn : y.HasOpen n) :
    (∃ x, s.process? q = some x ∧ x.HasOpen n) ∨ (q = s.nextPid ∧ ∃ pid p k,
      s.process? pid = some p ∧ p.next? m = some ⟨.fork, k⟩ ∧ p.HasOpen n ∧
        H' q = (H pid).record p birth) ∨ s.openFiles.above ≤ n := by
  have hresume : ∀ {s : System ι ρ} {pid : Pid} {c : Control ι ρ},
      (s.resume pid c).process? q = some y → ∃ x, s.process? q = some x ∧ x.HasOpen n := by
    intro s pid c hy
    obtain ⟨x, hx, hxy⟩ := System.process?_resume hy
    refine ⟨x, hx, ?_⟩
    split at hxy
    · split at hxy <;> (subst hxy; exact hn)
    · exact hxy ▸ hn
  have hmodify : ∀ {s : System ι ρ} {pid : Pid} {f : Process ι ρ → Process ι ρ},
      (∀ x, (f x).HasOpen n → x.HasOpen n) → (s.modifyProcess pid f).process? q = some y →
        ∃ x, s.process? q = some x ∧ x.HasOpen n := by
    intro s pid f hf hy
    rw [System.process?_modifyProcess] at hy
    split at hy
    · obtain ⟨x, hx, rfl⟩ := Option.map_eq_some_iff.1 hy
      exact ⟨x, hx, hf x hn⟩
    · exact ⟨y, hy, hn⟩
  have hended : ∀ (t : Termination) (x : Process ι ρ), (x.finish t).HasOpen n → x.HasOpen n := by
    rintro t x ⟨fd, d, hd, -⟩
    cases hd
  cases hm with
  | answered hp _ ha =>
    obtain hx | ⟨-, hn⟩ := (System.answer_effect ha hp).hasOpen hp hy hn
    · exact .inl hx
    · exact .inr (.inr hn)
  | refused hp _ hr => exact .inl (hresume hy)
  | @forked pid p k hp hnext hf =>
    obtain ⟨x, hx, hxn⟩ := hresume hy
    rw [System.process?_setProcess] at hx
    split at hx
    · obtain rfl := Option.some.inj hx
      subst q
      exact .inr (.inl ⟨rfl, pid, p, k, hp, hnext, hxn, Function.update_self _ _ _⟩)
    · exact .inl ⟨x, hx, hxn⟩
  | @became pid p _ _ _ _ _ hp _ hf =>
    rw [System.process?_setProcess] at hy
    split at hy
    · obtain rfl := Option.some.inj hy
      obtain ⟨fd, d, hd, hdn⟩ := hn
      exact .inl ⟨p, ‹q = pid› ▸ hp, fd, d,
        (Option.filter_eq_some_iff.1 ((Table.get?_filter _ _ _).symm.trans hd)).1, hdn⟩
    · exact .inl ⟨y, hy, hn⟩
  | exited => exact .inl (hmodify (hended _) hy)
  | broken hp _ hw hb =>
    obtain ⟨x, hx, hxn⟩ := hmodify (hended _) hy
    rw [System.process?, (System.write_eq_some hw).2.1] at hx
    exact .inl ⟨x, hx, hxn⟩
  | signaled pid k =>
    exact .inl (hmodify (fun x hx => (System.touched_signaled x k).hasOpen hx) hy)
  | outside hps =>
    rw [System.process?, hps] at hy
    exact .inl ⟨y, hy, hn⟩

end PipeShell
