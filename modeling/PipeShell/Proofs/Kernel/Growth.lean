import PipeShell.Kernel.Step

/-! What a system keeps. Open files and pipes are numbered in the order in which they are made, and
neither is ever given another number or another purpose: an open file stays what it is but for the
position in it. Main statement: that holds of every reply to a call (`grown_of_answer`). -/
namespace PipeShell

namespace Table

variable {α : Type} {t : Table α}

theorem lt_above_of_get?_eq_some {k : Nat} {a : α} (h : t.get? k = some a) : k < t.above := by
  refine Nat.lt_of_not_le fun hk => ?_
  rw [get?_eq_none_of_above_le hk] at h
  cases h

theorem foldl_above_le {ks : List Nat} {n m : Nat} (hn : n ≤ m) (h : ∀ k ∈ ks, k < m) :
    ks.foldl (fun m k => max m (k + 1)) n ≤ m := by
  induction ks generalizing n with
  | nil => exact hn
  | cons k ks ih =>
    have hk : k < m := h k List.mem_cons_self
    exact ih (Nat.max_le.2 ⟨hn, hk⟩) fun j hj => h j (List.mem_cons_of_mem k hj)

theorem above_le {n : Nat} (h : ∀ k a, t.get? k = some a → k < n) : t.above ≤ n := by
  refine foldl_above_le n.zero_le fun k hk => ?_
  obtain ⟨⟨_, a⟩, hm, rfl⟩ := List.mem_map.1 hk
  exact h _ a ((get?_eq_some_iff t _ a).2 hm)

theorem above_lt_set (t : Table α) (a : α) : t.above < (t.set t.above a).above :=
  lt_above_of_get?_eq_some ((get?_set t t.above t.above a).trans (if_pos rfl))

theorem above_le_set (t : Table α) (k : Nat) (a : α) : t.above ≤ (t.set k a).above := by
  refine above_le fun j b hb => ?_
  have h : ∃ c, (t.set k a).get? j = some c := by
    rw [get?_set]
    split
    · exact ⟨a, rfl⟩
    · exact ⟨b, hb⟩
  exact lt_above_of_get?_eq_some h.choose_spec

end Table

namespace System

variable {ι ρ : Type} {s s' s'' : System ι ρ}

/-- `s'` has all that `s` has, and what is new has a new number. -/
structure Grown (s s' : System ι ρ) : Prop where
  openFiles : s.openFiles.above ≤ s'.openFiles.above
  pipes : s.pipes.above ≤ s'.pipes.above
  kept : ∀ n f, s.openFiles.get? n = some f →
    ∃ position, s'.openFiles.get? n = some { f with position }
  added : ∀ n f, s'.openFiles.get? n = some f → s.openFiles.get? n = none →
    s.openFiles.above ≤ n ∧ ∀ q, f.resource = .readEnd q ∨ f.resource = .writeEnd q →
      s.pipes.above ≤ q ∧ q < s'.pipes.above

namespace Grown

theorem refl (s : System ι ρ) : Grown s s where
  openFiles := Nat.le_refl _
  pipes := Nat.le_refl _
  kept _ f h := ⟨f.position, h⟩
  added n f h h' := by rw [h] at h'; cases h'

theorem trans (h : Grown s s') (h' : Grown s' s'') : Grown s s'' where
  openFiles := Nat.le_trans h.openFiles h'.openFiles
  pipes := Nat.le_trans h.pipes h'.pipes
  kept n f hf := by
    obtain ⟨i, hi⟩ := h.kept n f hf
    obtain ⟨j, hj⟩ := h'.kept n _ hi
    exact ⟨j, hj⟩
  added n f hf hn := by
    cases hm : s'.openFiles.get? n with
    | none =>
      obtain ⟨h₁, h₂⟩ := h'.added n f hf hm
      exact ⟨Nat.le_trans h.openFiles h₁, fun q hq =>
        ⟨Nat.le_trans h.pipes (h₂ q hq).1, (h₂ q hq).2⟩⟩
    | some g =>
      -- it was there in between, with the same resource
      obtain ⟨i, hi⟩ := h'.kept n g hm
      obtain rfl : { g with position := i } = f := Option.some.inj (hi.symm.trans hf)
      obtain ⟨h₁, h₂⟩ := h.added n g hm hn
      exact ⟨h₁, fun q hq => ⟨(h₂ q hq).1, Nat.lt_of_lt_of_le (h₂ q hq).2 h'.pipes⟩⟩

theorem of_eq (ho : s'.openFiles = s.openFiles) (hp : s'.pipes = s.pipes) : Grown s s' where
  openFiles := Nat.le_of_eq (by rw [ho])
  pipes := Nat.le_of_eq (by rw [hp])
  kept n f h := ⟨f.position, by rw [ho]; exact h⟩
  added n f h h' := by rw [ho, h'] at h; cases h

theorem addOpenFile (s : System ι ρ) (f : OpenFile)
    (h : ∀ q, ¬(f.resource = .readEnd q ∨ f.resource = .writeEnd q)) :
    Grown s (s.addOpenFile f).1 where
  openFiles := Table.above_le_set _ _ _
  pipes := Nat.le_refl _
  kept n g hg := by
    have hn : n ≠ s.openFiles.above := Nat.ne_of_lt (Table.lt_above_of_get?_eq_some hg)
    exact ⟨g.position, by simpa [System.addOpenFile, hn] using hg⟩
  added n g hg hn := by
    by_cases hm : n = s.openFiles.above
    · subst hm
      obtain rfl : f = g := by simpa [System.addOpenFile] using hg
      exact ⟨Nat.le_refl _, fun q hq => absurd hq (h q)⟩
    · have : s.openFiles.get? n = some g := by simpa [System.addOpenFile, hm] using hg
      rw [this] at hn
      cases hn

theorem addPipe {f g : OpenFile} {k : Nat} (hf : f.resource = .readEnd s.pipes.above)
    (hg : g.resource = .writeEnd s.pipes.above) (hk : s.openFiles.above < k)
    (ho : s'.openFiles = (s.openFiles.set s.openFiles.above f).set k g)
    (hp : s'.pipes = s.pipes.set s.pipes.above []) : Grown s s' := by
  have hbelow : s.pipes.above < s'.pipes.above := by
    rw [hp]
    exact Table.above_lt_set _ _
  refine ⟨?_, Nat.le_of_lt hbelow, fun n x hx => ⟨x.position, ?_⟩, fun n x hx hn => ?_⟩
  · rw [ho]
    exact Nat.le_trans (Table.above_le_set _ _ _) (Table.above_le_set _ _ _)
  · have hlt := Table.lt_above_of_get?_eq_some hx
    rw [ho, Table.get?_set, if_neg (by omega), Table.get?_set, if_neg (by omega)]
    exact hx
  · rw [ho, Table.get?_set, Table.get?_set] at hx
    split at hx
    · obtain rfl := Option.some.inj hx
      refine ⟨by omega, fun q hq => ?_⟩
      obtain rfl : s.pipes.above = q := by simpa [hg] using hq
      exact ⟨Nat.le_refl _, hbelow⟩
    · split at hx
      · obtain rfl := Option.some.inj hx
        refine ⟨by omega, fun q hq => ?_⟩
        obtain rfl : s.pipes.above = q := by simpa [hf] using hq
        exact ⟨Nat.le_refl _, hbelow⟩
      · rw [hx] at hn
        cases hn

theorem setPosition {n : Nat} {f : OpenFile} (hf : s.openFiles.get? n = some f) (position : Nat)
    (ho : s'.openFiles = s.openFiles.set n { f with position }) (hp : s'.pipes = s.pipes) :
    Grown s s' where
  openFiles := by rw [ho]; exact Table.above_le_set _ _ _
  pipes := Nat.le_of_eq (by rw [hp])
  kept m g hg := by
    rw [ho, Table.get?_set]
    split
    · rename_i hm
      subst hm
      obtain rfl : f = g := Option.some.inj (hf.symm.trans hg)
      exact ⟨position, rfl⟩
    · exact ⟨g.position, hg⟩
  added m g hg hm := by
    rw [ho, Table.get?_set] at hg
    split at hg
    · rename_i h
      subst h
      rw [hf] at hm
      cases hm
    · rw [hg] at hm
      cases hm

theorem setPipe (q : Nat) (buffer : Bytes) (ho : s'.openFiles = s.openFiles)
    (hp : s'.pipes = s.pipes.set q buffer) : Grown s s' where
  openFiles := Nat.le_of_eq (by rw [ho])
  pipes := by rw [hp]; exact Table.above_le_set _ _ _
  kept n f h := ⟨f.position, by rw [ho]; exact h⟩
  added n f h h' := by rw [ho, h'] at h; cases h

end Grown

theorem grown_modifyProcess (s : System ι ρ) (pid : Pid) (f : Process ι ρ → Process ι ρ) :
    Grown s (s.modifyProcess pid f) := by
  unfold modifyProcess
  split
  · exact .of_eq rfl rfl
  · exact .refl s

theorem grown_fork (s : System ι ρ) (pid : Pid) (p : Process ι ρ) (child : Control ι ρ)
    (parent : Pid → Control ι ρ) : Grown s (s.fork pid p child parent) := by
  simp only [fork, resume]
  refine Grown.trans ?_ (grown_modifyProcess _ pid _)
  exact .of_eq rfl rfl

variable {pid : Pid} {p : Process ι ρ}

theorem openPath_eq_ok {path : Bytes} {mode : OpenMode} {fd : Fd}
    (h : s.openPath pid p path mode = .ok (s', fd)) :
    p.freeDescriptor? = some fd ∧ ∃ files i,
      s.files.openAs p.credentials p.directory path mode = .ok (files, i) ∧
      s' = ({ s with files }.addOpenFile (mode.openFile i)).1.setProcess pid
        { p with descriptors := p.descriptors.set fd ⟨s.openFiles.above, true⟩ } := by
  unfold openPath at h
  cases he : FileTree.pathError? path with
  | some e => simp only [he] at h; cases h
  | none =>
    cases hfd : p.freeDescriptor? with
    | none => simp only [he, hfd] at h; cases h
    | some fd' =>
      cases ho : s.files.openAs p.credentials p.directory path mode with
      | error e => simp only [he, hfd, ho] at h; cases h
      | ok x =>
        simp only [he, hfd, ho] at h
        cases h
        exact ⟨rfl, x.1, x.2, rfl, rfl⟩

theorem openPath_of_answer {path : Bytes} {mode : OpenMode} {fd : Fd}
    (h : s.answer pid p (.openFile path mode) = some (.ok fd, s')) :
    s.openPath pid p path mode = .ok (s', fd) := by
  have hc := Option.some.inj h
  split at hc
  · cases hc
  · cases hc
    assumption

theorem openPipe_eq_ok {r w : Fd} (h : s.openPipe pid p = .ok (s', r, w)) :
    p.freeDescriptor? = some r ∧
      let p' := { p with descriptors := p.descriptors.set r ⟨s.openFiles.above, true⟩ }
      p'.freeDescriptor? = some w ∧
        let s₁ := { s with pipes := s.pipes.set s.pipes.above [] }
        let s₂ := (s₁.addOpenFile ⟨.readEnd s.pipes.above, true, false, false, 0⟩).1
        let s₃ := (s₂.addOpenFile ⟨.writeEnd s.pipes.above, false, true, false, 0⟩).1
        s' = s₃.setProcess pid
          { p with descriptors := p'.descriptors.set w ⟨s₂.openFiles.above, true⟩ } := by
  unfold openPipe at h
  cases hr : p.freeDescriptor? with
  | none => simp only [hr] at h; cases h
  | some r' =>
    simp only [hr] at h
    split at h
    · rename_i w' hw
      cases h
      exact ⟨rfl, hw, rfl⟩
    · cases h

theorem grown_openPath {path : Bytes} {mode : OpenMode} {fd : Fd}
    (h : s.openPath pid p path mode = .ok (s', fd)) : Grown s s' := by
  obtain ⟨-, files, i, -, rfl⟩ := openPath_eq_ok h
  have h₁ : Grown s { s with files } := .of_eq rfl rfl
  refine (h₁.trans (.addOpenFile _ (mode.openFile i) ?_)).trans (.of_eq rfl rfl)
  cases mode <;> simp [OpenMode.openFile]

theorem grown_openPipe {r w : Fd} (h : s.openPipe pid p = .ok (s', r, w)) : Grown s s' := by
  obtain ⟨-, -, rfl⟩ := openPipe_eq_ok h
  exact .addPipe rfl rfl (Table.above_lt_set _ _) rfl rfl

theorem read_eq_some {fd : Fd} {n : Nat} {x : Except Errno Bytes}
    (h : s.read p fd n = some (x, s')) :
    Grown s s' ∧ s'.processes = s.processes ∧ s'.nextPid = s.nextPid := by
  unfold read at h
  cases ho : s.openFile? p fd with
  | none => simp only [ho] at h; cases h; exact ⟨.refl s, rfl, rfl⟩
  | some y =>
    obtain ⟨k, f⟩ := y
    obtain ⟨d, -, rfl, hf⟩ := (openFile?_eq_some_iff s p fd k f).1 ho
    simp only [ho] at h
    split at h
    · cases h; exact ⟨.refl s, rfl, rfl⟩
    · split at h
      · -- a file
        split at h
        · cases h; exact ⟨.refl s, rfl, rfl⟩
        · cases h; exact ⟨.setPosition hf _ rfl rfl, rfl, rfl⟩
      · -- a pipe
        split at h
        · split at h
          · cases h
          · cases h; exact ⟨.refl s, rfl, rfl⟩
        · cases h; exact ⟨.setPipe _ _ rfl rfl, rfl, rfl⟩
      · -- a source
        split at h
        · cases h; exact ⟨.refl s, rfl, rfl⟩
        · split at h
          · split at h
            · cases h; exact ⟨.refl s, rfl, rfl⟩
            · cases h
          · cases h; exact ⟨.of_eq rfl rfl, rfl, rfl⟩
      · cases h; exact ⟨.refl s, rfl, rfl⟩

theorem writeFile_spec {n i : Nat} {f : OpenFile} (hf : s.openFiles.get? n = some f)
    (data : Bytes) : Grown s (s.writeFile n f i data).2 ∧
      (s.writeFile n f i data).2.processes = s.processes ∧
      (s.writeFile n f i data).2.nextPid = s.nextPid := by
  unfold writeFile
  split
  · exact ⟨.setPosition hf _ rfl rfl, rfl, rfl⟩
  · exact ⟨.refl s, rfl, rfl⟩
  · exact ⟨.refl s, rfl, rfl⟩

theorem write_eq_some {fd : Fd} {data : Bytes} {x : Except Errno Nat}
    (h : s.write p fd data = some (x, s')) :
    Grown s s' ∧ s'.processes = s.processes ∧ s'.nextPid = s.nextPid := by
  unfold write at h
  cases ho : s.openFile? p fd with
  | none => simp only [ho] at h; cases h; exact ⟨.refl s, rfl, rfl⟩
  | some y =>
    obtain ⟨k, f⟩ := y
    obtain ⟨d, -, rfl, hf⟩ := (openFile?_eq_some_iff s p fd k f).1 ho
    simp only [ho] at h
    split at h
    · cases h; exact ⟨.refl s, rfl, rfl⟩
    · split at h
      · cases h; exact ⟨.refl s, rfl, rfl⟩
      · split at h
        · -- a file
          rename_i i _
          have hw : (s.writeFile d.openFile f i data).2 = s' :=
            congrArg Prod.snd (Option.some.inj h)
          rw [← hw]
          exact writeFile_spec hf data
        · -- a pipe
          split at h
          · cases h; exact ⟨.refl s, rfl, rfl⟩
          · split at h
            · cases h
            · cases h; exact ⟨.setPipe _ _ rfl rfl, rfl, rfl⟩
        · cases h; exact ⟨.refl s, rfl, rfl⟩

end System

end PipeShell
