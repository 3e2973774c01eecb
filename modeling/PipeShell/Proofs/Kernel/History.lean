import PipeShell.Proofs.Kernel.Descent

/-! Histories. The history of a run is the list of the states that the system has gone through, and
it tells how a process has ended also when that process has been waited for and is gone. Main
statements: every run has a history (`Run.exists_history`); the answer to a wait is how the process
that was waited for has ended, and it is gone then (`History.outcome_of_wait`); the outcome of code
that exits is the exit code that it asks for (`History.exits`); and what a fork has returned is the
number of a process that goes on from there (`Run.children`). -/
namespace PipeShell

variable {ι ρ : Type}

inductive Move (m : Machine ι) (H : Pid → Past) (s : System ι ρ) :
    (Pid → Past) → System ι ρ → Prop
  | answered {s' : System ι ρ} {pid : Pid} {p : Process ι ρ} {c : Syscall}
      {k : c.Reply → Control ι ρ} {r : c.Reply} (hp : s.process? pid = some p)
      (hn : p.next? m = some ⟨c, k⟩) (ha : s.answer pid p c = some (r, s')) :
      Move m H s (Function.update H pid ((H pid).record p ⟨c, r⟩)) (s'.resume pid (k r))
  | refused {pid : Pid} {p : Process ι ρ} {c : Syscall} {k : c.Reply → Control ι ρ} {r : c.Reply}
      (hp : s.process? pid = some p) (hn : p.next? m = some ⟨c, k⟩) (hr : Refusal c r) :
      Move m H s (Function.update H pid ((H pid).record p ⟨c, r⟩)) (s.resume pid (k r))
  | forked {pid : Pid} {p : Process ι ρ} {k : Syscall.fork.Reply → Control ι ρ}
      (hp : s.process? pid = some p) (hn : p.next? m = some ⟨.fork, k⟩)
      (hf : s.mayFork p = true) :
      Move m H s
        (Function.update
          (Function.update H pid ((H pid).record p ⟨.fork, .ok (.parent s.nextPid)⟩))
          s.nextPid ((H pid).record p birth))
        (s.fork pid p (k (.ok .child)) fun new => k (.ok (.parent new)))
  | became {pid : Pid} {p : Process ι ρ} {path name : Bytes} {argv argv' : List Bytes}
      {k : (Syscall.exec path argv).Reply → Control ι ρ} (hp : s.process? pid = some p)
      (hn : p.next? m = some ⟨.exec path argv, k⟩)
      (hf : s.files.program p.credentials p.directory Header.depth path argv = .ok (name, argv')) :
      Move m H s (Function.update H pid (H pid).become) (s.setProcess pid
        { p with
          control := .image (m.load name argv')
          descriptors := p.descriptors.filter fun d => !d.closeOnExec })
  | exited {pid : Pid} {p : Process ι ρ} {code : Int32}
      {k : (Syscall.exit code).Reply → Control ι ρ} (hp : s.process? pid = some p)
      (hn : p.next? m = some ⟨.exit code, k⟩) :
      Move m H s H (s.finish pid (.exited (ExitCode.status code)))
  | broken {s' : System ι ρ} {pid : Pid} {p : Process ι ρ} {fd : Fd} {data : Bytes}
      {k : (Syscall.write fd data).Reply → Control ι ρ} {r : Except Errno Nat}
      (hp : s.process? pid = some p) (hn : p.next? m = some ⟨.write fd data, k⟩)
      (hw : s.write p fd data = some (r, s')) (hb : p.breaks r = true) :
      Move m H s H (s'.finish pid (.signaled Signal.brokenPipe))
  | signaled (pid : Pid) (n : Signal) : Move m H s H (s.modifyProcess pid (·.signaled n))
  | outside {s' : System ι ρ} (hp : s'.processes = s.processes) (ho : s'.openFiles = s.openFiles)
      (hq : s'.pipes = s.pipes) (hn : s'.nextPid = s.nextPid) : Move m H s H s'

variable {m : Machine ι} {s₀ s s' t : System ι ρ} {H H' : Pid → Past} {pid q : Pid}
  {p x y : Process ι ρ} {e : Termination} {ss : List (System ι ρ)}

theorem Run.move (h : Run m s₀ H s) (hm : Move m H s H' s') : Run m s₀ H' s' := by
  cases hm with
  | answered hp hn ha => exact h.answered hp hn ha
  | refused hp hn hr => exact h.refused hp hn hr
  | forked hp hn hf => exact h.forked hp hn hf
  | became hp hn hf => exact h.became hp hn hf
  | exited hp hn => exact h.exited hp hn
  | broken hp hn hw hb => exact h.broken hp hn hw hb
  | signaled pid n => exact h.signaled pid n
  | outside hp ho hq hn => exact h.outside hp ho hq hn

/-- A run with the states that it has gone through, the last one included. -/
inductive History (m : Machine ι) (s₀ : System ι ρ) :
    List (System ι ρ) → (Pid → Past) → System ι ρ → Prop
  | start : History m s₀ [s₀] Past.start s₀
  | move {ss : List (System ι ρ)} {H H' : Pid → Past} {s s' : System ι ρ}
      (h : History m s₀ ss H s) (hm : Move m H s H' s') : History m s₀ (ss ++ [s']) H' s'

theorem History.run (h : History m s₀ ss H t) : Run m s₀ H t := by
  induction h with
  | start => exact .start
  | move _ hm ih => exact ih.move hm

theorem Run.exists_history (h : Run m s₀ H t) : ∃ ss, History m s₀ ss H t := by
  induction h with
  | start => exact ⟨_, .start⟩
  | answered _ hp hn ha ih => exact ⟨_, ih.choose_spec.move (.answered hp hn ha)⟩
  | refused _ hp hn hr ih => exact ⟨_, ih.choose_spec.move (.refused hp hn hr)⟩
  | forked _ hp hn hf ih => exact ⟨_, ih.choose_spec.move (.forked hp hn hf)⟩
  | became _ hp hn hf ih => exact ⟨_, ih.choose_spec.move (.became hp hn hf)⟩
  | exited _ hp hn ih => exact ⟨_, ih.choose_spec.move (.exited hp hn)⟩
  | broken _ hp hn hw hb ih => exact ⟨_, ih.choose_spec.move (.broken hp hn hw hb)⟩
  | signaled _ pid n ih => exact ⟨_, ih.choose_spec.move (.signaled pid n)⟩
  | outside _ hp ho hq hn ih => exact ⟨_, ih.choose_spec.move (.outside hp ho hq hn)⟩

namespace System

def Gone (s : System ι ρ) (q : Pid) : Prop := s.process? q = none ∧ q < s.nextPid

def Over (s : System ι ρ) (q : Pid) (e : Termination) : Prop :=
  s.Gone q ∨ ∃ x, s.process? q = some x ∧ x.control = .ended e

def EndsAs (x y : Process ι ρ) : Prop := ∀ e, x.control = .ended e → y.control = .ended e

theorem endsAs_signaled (x : Process ι ρ) (n : Signal) : EndsAs x (x.signaled n) := by
  intro e he
  rw [Process.signaled, he]
  exact he

theorem endsAs_of_next? {c : Syscall} {k : c.Reply → Control ι ρ}
    (hn : x.next? m = some ⟨c, k⟩) : EndsAs x y := by
  intro e he
  have := Preserved.termination?_of_next? hn
  rw [he] at this
  cases this

theorem wait_eq_ok (h : s.wait pid p q = some (.ok e, s')) :
    (∃ x, s.process? q = some x ∧ x.control = .ended e) ∧ s'.process? q = none := by
  unfold wait at h
  split at h
  · cases h
  · rename_i x hx
    split at h
    · cases h
    · split at h
      · rename_i he
        cases h
        refine ⟨⟨x, hx, he⟩, ?_⟩
        rw [process?, Table.get?_erase, if_pos rfl]
      · split at h
        · cases h
        · split at h <;> cases h

theorem exists_of_resume {c : Control ι ρ} (h : (s.resume pid c).process? q = some y) :
    ∃ x, s.process? q = some x ∧ EndsAs x y := by
  obtain ⟨x, hx, hxy⟩ := process?_resume h
  refine ⟨x, hx, fun e he => ?_⟩
  split at hxy
  · rw [hxy, he]
    exact he
  · rw [hxy]
    exact he

theorem exists_of_modifyProcess {f : Process ι ρ → Process ι ρ}
    (hf : ∀ x, s.process? pid = some x → EndsAs x (f x))
    (h : (s.modifyProcess pid f).process? q = some y) :
    ∃ x, s.process? q = some x ∧ EndsAs x y := by
  rw [process?_modifyProcess] at h
  split at h
  · rename_i hq
    obtain ⟨x, hx, rfl⟩ := Option.map_eq_some_iff.1 h
    exact ⟨x, hx, hf x (hq ▸ hx)⟩
  · exact ⟨y, h, fun _ he => he⟩

end System

section Moves

open PipeShell.System

namespace Move

theorem nextPid_le (hm : Move m H s H' s') : s.nextPid ≤ s'.nextPid := by
  cases hm with
  | answered hp hn ha =>
    rw [System.resume, nextPid_modifyProcess]
    exact Nat.le_of_eq (answer_effect ha hp).nextPid.symm
  | refused | exited | signaled => exact Nat.le_of_eq (nextPid_modifyProcess _ _ _).symm
  | forked hp hn hf =>
    rw [System.fork, System.resume, nextPid_modifyProcess]
    exact Nat.le_succ _
  | became hp hn hf => exact Nat.le_refl _
  | broken hp hn hw hb =>
    rw [System.finish, nextPid_modifyProcess]
    exact Nat.le_of_eq (write_eq_some hw).2.2.symm
  | outside hp ho hq hn => exact Nat.le_of_eq hn.symm

theorem exists_before (hm : Move m H s H' s') (hy : s'.process? q = some y) :
    q = s.nextPid ∨ ∃ x, s.process? q = some x ∧ EndsAs x y := by
  cases hm with
  | @answered s₁ pid p c k r hp hn ha =>
    refine .inr ?_
    obtain ⟨-, -, p', -, hf⟩ := answer_effect ha hp
    obtain ⟨z, hz, hzy⟩ := exists_of_resume hy
    by_cases hq : q = pid
    · exact ⟨p, hq ▸ hp, endsAs_of_next? hn⟩
    · obtain ⟨x, hx, hxz⟩ := hf q z hz
      rw [if_neg hq] at hx
      refine ⟨x, hx, fun e he => hzy e ?_⟩
      obtain rfl | ⟨n, rfl⟩ := hxz
      · exact he
      · exact endsAs_signaled x n e he
  | refused hp hn hr => exact .inr (exists_of_resume hy)
  | @forked pid p k hp hn hf =>
    obtain ⟨z, hz, hzy⟩ := exists_of_resume hy
    rw [process?_setProcess] at hz
    split at hz
    · exact .inl ‹_›
    · exact .inr ⟨z, hz, hzy⟩
  | @became pid p path name argv argv' k hp hn hf =>
    refine .inr ?_
    rw [process?_setProcess] at hy
    split at hy
    · exact ⟨p, ‹q = pid› ▸ hp, endsAs_of_next? hn⟩
    · exact ⟨y, hy, fun _ he => he⟩
  | @exited pid p code k hp hn =>
    refine .inr (exists_of_modifyProcess (fun x hx => ?_) hy)
    obtain rfl := Option.some.inj (hp.symm.trans hx)
    exact endsAs_of_next? hn
  | @broken s₁ pid p fd data k r hp hn hw hb =>
    have hps : ∀ q, s₁.process? q = s.process? q := fun q => by
      rw [process?, (write_eq_some hw).2.1, process?]
    have hends : ∀ x, s₁.process? pid = some x →
        EndsAs x (x.finish (.signaled Signal.brokenPipe)) := by
      intro x hx
      obtain rfl := Option.some.inj (hp.symm.trans (hps pid ▸ hx))
      exact endsAs_of_next? hn
    obtain ⟨x, hx, hxy⟩ := exists_of_modifyProcess hends hy
    exact .inr ⟨x, hps q ▸ hx, hxy⟩
  | signaled pid n => exact .inr (exists_of_modifyProcess (fun x _ => endsAs_signaled x n) hy)
  | outside hp ho hq hn =>
    rw [process?, hp] at hy
    exact .inr ⟨y, hy, fun _ he => he⟩

theorem gone (hm : Move m H s H' s') (h : s.Gone q) : s'.Gone q := by
  refine ⟨Option.eq_none_iff_forall_ne_some.2 fun y hy => ?_,
    Nat.lt_of_lt_of_le h.2 hm.nextPid_le⟩
  obtain rfl | ⟨x, hx, -⟩ := hm.exists_before hy
  · exact Nat.lt_irrefl _ h.2
  · rw [h.1] at hx
    cases hx

theorem keeps_over (hm : Move m H s H' s') (hs : s.Numbered) (h : s.Over q e) : s'.Over q e := by
  obtain hg | ⟨x, hx, he⟩ := h
  · exact .inl (hm.gone hg)
  · have hlt : q < s.nextPid := hs q x hx
    cases hy : s'.process? q with
    | none => exact .inl ⟨hy, Nat.lt_of_lt_of_le hlt hm.nextPid_le⟩
    | some y =>
      obtain rfl | ⟨x', hx', hxy⟩ := hm.exists_before hy
      · exact absurd hlt (Nat.lt_irrefl _)
      · obtain rfl := Option.some.inj (hx.symm.trans hx')
        exact .inr ⟨y, hy, hxy e he⟩

theorem past_eq (hm : Move m H s H' s') :
    H' q = H q ∨ q = s.nextPid ∨ ∃ x, s.process? q = some x ∧ x.control.termination? = none := by
  have hself : ∀ {pid p c k past}, s.process? pid = some p →
      p.next? m = some (⟨c, k⟩ : (c : Syscall) × (c.Reply → Control ι ρ)) →
      Function.update H pid past q = H q ∨
        ∃ x, s.process? q = some x ∧ x.control.termination? = none := by
    intro pid p c k past hp hn
    by_cases hq : q = pid
    · exact .inr ⟨p, hq ▸ hp, Preserved.termination?_of_next? hn⟩
    · exact .inl (Function.update_of_ne hq _ _)
  cases hm with
  | answered hp hn ha => exact (hself hp hn).imp_right .inr
  | refused hp hn hr => exact (hself hp hn).imp_right .inr
  | forked hp hn hf =>
    by_cases hq : q = s.nextPid
    · exact .inr (.inl hq)
    · rw [Function.update_of_ne hq]
      exact (hself hp hn).imp_right .inr
  | became hp hn hf => exact (hself hp hn).imp_right .inr
  | exited | broken | signaled | outside => exact .inl rfl

theorem past_eq_of_over (hm : Move m H s H' s') (hs : s.Numbered) (h : s.Over q e) :
    H' q = H q := by
  obtain he | rfl | ⟨x, hx, hnone⟩ := hm.past_eq (q := q)
  · exact he
  · obtain hg | ⟨x, hx, -⟩ := h
    · exact absurd hg.2 (Nat.lt_irrefl _)
    · exact absurd (hs _ x hx) (Nat.lt_irrefl _)
  · obtain hg | ⟨x', hx', he⟩ := h
    · rw [hg.1] at hx
      cases hx
    · obtain rfl := Option.some.inj (hx.symm.trans hx')
      rw [he] at hnone
      cases hnone

theorem mem_code {ev : Event} (hm : Move m H s H' s') (h : ev ∈ (H' pid).code) :
    (∃ pid', ev ∈ (H pid').code) ∨ (∃ pid' p k s₁, s.process? pid' = some p ∧
      s.answer pid' p ev.call = some (ev.reply, s₁) ∧ s' = s₁.resume pid' k) ∨
      Refusal ev.call ev.reply ∨ ev.call = .fork := by
  have hrecord : ∀ {pid' : Pid} {p : Process ι ρ} {ev' : Event},
      ev ∈ ((H pid').record p ev').code → ev ∈ (H pid').code ∨ ev = ev' := by
    intro pid' p ev' hm
    unfold Past.record at hm
    split at hm
    · simpa using hm
    · exact .inl hm
  have hupdate : ∀ {pid' : Pid} {past : Past} {H : Pid → Past},
      ev ∈ (Function.update H pid' past pid).code → ev ∈ past.code ∨ ev ∈ (H pid).code := by
    intro pid' past H hm
    rw [Function.update_apply] at hm
    split at hm
    · exact .inl hm
    · exact .inr hm
  cases hm with
  | answered hp hn ha =>
    obtain h | h := hupdate h
    · obtain h | rfl := hrecord h
      · exact .inl ⟨_, h⟩
      · exact .inr (.inl ⟨_, _, _, _, hp, ha, rfl⟩)
    · exact .inl ⟨_, h⟩
  | refused hp hn hr =>
    obtain h | h := hupdate h
    · obtain h | rfl := hrecord h
      · exact .inl ⟨_, h⟩
      · exact .inr (.inr (.inl hr))
    · exact .inl ⟨_, h⟩
  | forked hp hn hf =>
    obtain h | h := hupdate h
    · obtain h | rfl := hrecord h
      · exact .inl ⟨_, h⟩
      · exact .inr (.inr (.inr rfl))
    · obtain h | h := hupdate h
      · obtain h | rfl := hrecord h
        · exact .inl ⟨_, h⟩
        · exact .inr (.inr (.inr rfl))
      · exact .inl ⟨_, h⟩
  | became hp hn hf => exact .inl ((hupdate h).elim (⟨_, ·⟩) (⟨_, ·⟩))
  | exited | broken | signaled | outside => exact .inl ⟨_, h⟩

theorem wait_ok (hm : Move m H s H' s') (h : (⟨.wait q, .ok e⟩ : Event) ∈ (H' pid).code) :
    (∃ pid', (⟨.wait q, .ok e⟩ : Event) ∈ (H pid').code) ∨
      (∃ x, s.process? q = some x ∧ x.control = .ended e) ∧ s'.process? q = none := by
  obtain h | ⟨pid', p, k, s₁, hp, ha, rfl⟩ | hr | hc := hm.mem_code h
  · exact .inl h
  · obtain ⟨hx, hnone⟩ := wait_eq_ok ha
    refine .inr ⟨hx, ?_⟩
    rw [System.resume, process?_modifyProcess, hnone]
    split <;> rfl
  · cases hr
  · cases hc

/-- Code goes on by one event at a time. If that is a fork that has succeeded, there is a new
process, which has the same past but for the event by which it is born. -/
theorem code_cases (hm : Move m H s H' s') (hq : q ≠ s.nextPid) :
    (H' q).root = (H q).root ∧ ((H' q).code = (H q).code ∨
      ∃ ev, (H' q).code = (H q).code ++ [ev] ∧ ∀ new, ev = ⟨.fork, .ok (.parent new)⟩ →
        new < s'.nextPid ∧ (H' new).root = (H q).root ∧ (H' new).code = (H q).code ++ [birth]) := by
  have hself : ∀ {pid : Pid} {p : Process ι ρ} {ev : Event},
      (∀ new, ev ≠ ⟨.fork, .ok (.parent new)⟩) →
      let H' := Function.update H pid ((H pid).record p ev)
      (H' q).root = (H q).root ∧ ((H' q).code = (H q).code ∨
        ∃ ev, (H' q).code = (H q).code ++ [ev] ∧ ∀ new, ev = ⟨.fork, .ok (.parent new)⟩ →
          new < s'.nextPid ∧ (H' new).root = (H q).root ∧
            (H' new).code = (H q).code ++ [birth]) := by
    intro pid p ev hev H'
    by_cases hqp : q = pid
    · subst hqp
      have hH : H' q = (H q).record p ev := Function.update_self _ _ _
      rw [hH]
      refine ⟨Past.root_record _ _ _, ?_⟩
      unfold Past.record
      split
      · exact .inr ⟨ev, rfl, fun new he => absurd he (hev new)⟩
      · exact .inl rfl
    · have hH : H' q = H q := Function.update_of_ne hqp _ _
      rw [hH]
      exact ⟨rfl, .inl rfl⟩
  cases hm with
  | answered hp hn ha =>
    refine hself ?_
    rintro new he
    cases he
    simp only [System.answer] at ha
    split at ha
    · cases ha
    · cases ha
  | refused hp hn hr =>
    refine hself ?_
    rintro new he
    cases he
    cases hr
  | @forked pid p k hp hn hf =>
    rw [Function.update_of_ne hq]
    by_cases hqp : q = pid
    · subst hqp
      rw [Function.update_self]
      refine ⟨Past.root_record _ _ _, ?_⟩
      by_cases hc : p.control.isCode = true
      · refine .inr ⟨⟨.fork, .ok (.parent s.nextPid)⟩, by rw [Past.record, if_pos hc], ?_⟩
        rintro new he
        obtain rfl := parent_inj he
        rw [Function.update_self, System.fork, System.resume, nextPid_modifyProcess]
        exact ⟨Nat.lt_succ_self _, Past.root_record _ _ _, by rw [Past.record, if_pos hc]⟩
      · exact .inl (by rw [Past.record, if_neg hc])
    · rw [Function.update_of_ne hqp]
      exact ⟨rfl, .inl rfl⟩
  | became hp hn hf =>
    rw [Function.update_apply]
    split
    · subst q
      exact ⟨rfl, .inl rfl⟩
    · exact ⟨rfl, .inl rfl⟩
  | exited | broken | signaled | outside => exact ⟨rfl, .inl rfl⟩

end Move

end Moves

/-- How process `q` has ended, as the states that the system has gone through show it. -/
def outcome? (ss : List (System ι ρ)) (q : Pid) : Option Termination :=
  ss.findSome? fun s => (s.process? q).bind (·.control.termination?)

theorem bind_termination?_eq_some_iff : (s.process? q).bind (·.control.termination?) = some e ↔
    ∃ x, s.process? q = some x ∧ x.control = .ended e := by
  rw [Option.bind_eq_some_iff]
  refine exists_congr fun x => and_congr_right fun _ => ?_
  cases x.control with
  | ended t => simp [Control.termination?]
  | _ => simp [Control.termination?]

theorem outcome?_concat (ss : List (System ι ρ)) (s : System ι ρ) (q : Pid) :
    outcome? (ss ++ [s]) q =
      (outcome? ss q).or ((s.process? q).bind (·.control.termination?)) := by
  simp [outcome?, List.findSome?_append, Option.or]

namespace History

theorem mem (h : History m s₀ ss H t) : t ∈ ss := by
  cases h with
  | start => exact List.mem_singleton_self _
  | move => exact List.mem_append_right _ (List.mem_singleton_self _)

/-- The moment at which a process has ended: nothing has happened to it since then. -/
theorem ended_of_outcome (h : History m s₀ ss H t) (hs : s₀.Numbered)
    (ho : outcome? ss q = some e) : t.Over q e ∧
      ∃ H₁ s₁ x, Run m s₀ H₁ s₁ ∧ s₁.process? q = some x ∧ x.control = .ended e ∧ H q = H₁ q := by
  induction h with
  | start =>
    obtain ⟨x, hx, he⟩ := bind_termination?_eq_some_iff.1 (by simpa [outcome?] using ho)
    exact ⟨.inr ⟨x, hx, he⟩, _, _, x, .start, hx, he, rfl⟩
  | @move ss H H' s s' h hm ih =>
    rw [outcome?_concat, Option.or_eq_some_iff] at ho
    obtain ho | ⟨-, ho⟩ := ho
    · obtain ⟨hover, H₁, s₁, x, hrun, hx, he, hpast⟩ := ih ho
      have hnum := h.run.numbered hs
      exact ⟨hm.keeps_over hnum hover, H₁, s₁, x, hrun, hx, he,
        (hm.past_eq_of_over hnum hover).trans hpast⟩
    · obtain ⟨x, hx, he⟩ := bind_termination?_eq_some_iff.1 ho
      exact ⟨.inr ⟨x, hx, he⟩, H', s', x, h.run.move hm, hx, he, rfl⟩

theorem outcome_of_ended (h : History m s₀ ss H t) (hs : s₀.Numbered)
    (hx : t.process? q = some x) (he : x.control = .ended e) : outcome? ss q = some e := by
  cases ho : outcome? ss q with
  | none =>
    have hnone := List.findSome?_eq_none_iff.1 ho t h.mem
    rw [bind_termination?_eq_some_iff.2 ⟨x, hx, he⟩] at hnone
    cases hnone
  | some e' =>
    obtain hg | ⟨x', hx', he'⟩ := (h.ended_of_outcome hs ho).1
    · rw [hg.1] at hx
      cases hx
    · obtain rfl := Option.some.inj (hx.symm.trans hx')
      rw [he] at he'
      cases he'
      rfl

theorem outcome_of_wait (h : History m s₀ ss H t) (hs : s₀.Numbered)
    (hw : (⟨.wait q, .ok e⟩ : Event) ∈ (H pid).code) : outcome? ss q = some e ∧ t.Gone q := by
  induction h generalizing pid with
  | start => cases hw
  | @move ss H H' s s' h hm ih =>
    rw [outcome?_concat]
    obtain ⟨pid', hw⟩ | ⟨⟨x, hx, he⟩, hnone⟩ := hm.wait_ok hw
    · obtain ⟨ho, hg⟩ := ih hw
      rw [ho]
      exact ⟨rfl, hm.gone hg⟩
    · have hlt := Nat.lt_of_lt_of_le (h.run.numbered hs q x hx) hm.nextPid_le
      rw [h.outcome_of_ended hs hx he]
      exact ⟨rfl, hnone, hlt⟩

theorem exits (h : History m s₀ ss H t) (hs : s₀.Numbered) {prog : Program ρ} {n : UInt8}
    (hp : s₀.process? (H q).root = some p) (hc : p.control = .code prog)
    (ho : outcome? ss q = some (.exited n)) (hi : (H q).image = none) :
    ∃ code, prog.Exits (H q).code code ∧ n = ExitCode.status code := by
  obtain ⟨-, H₁, s₁, x, hrun, hx, he, hpast⟩ := h.ended_of_outcome hs ho
  rw [hpast] at hp hi ⊢
  exact (hrun.executes hs hx hp hc).exited n he hi

end History

/-- Whether the processes whose numbers process `sh` has got from forks are its children. -/
def KnowsChildren (n : Pid) (sh : Pid) (H : Pid → Past) : Prop :=
  ∀ es q fs, (H sh).code = es ++ ⟨.fork, .ok (.parent q)⟩ :: fs →
    q < n ∧ (H q).root = sh ∧ es ++ [birth] <+: (H q).code

theorem KnowsChildren.move {sh : Pid} (h : KnowsChildren s.nextPid sh H) (hm : Move m H s H' s')
    (hroot : (H sh).root = sh) (hsh : sh < s.nextPid) : KnowsChildren s'.nextPid sh H' := by
  have hold : ∀ {es q fs}, (H sh).code = es ++ ⟨.fork, .ok (.parent q)⟩ :: fs →
      q < s'.nextPid ∧ (H' q).root = sh ∧ es ++ [birth] <+: (H' q).code := by
    intro es q fs he
    obtain ⟨hlt, hr, hpre⟩ := h es q fs he
    obtain ⟨hr', hcode⟩ := hm.code_cases (Nat.ne_of_lt hlt)
    refine ⟨Nat.lt_of_lt_of_le hlt hm.nextPid_le, hr'.trans hr, hpre.trans ?_⟩
    obtain hcode | ⟨ev, hcode, -⟩ := hcode
    · exact hcode ▸ List.prefix_refl _
    · exact hcode ▸ List.prefix_append _ _
  intro es q fs he
  obtain ⟨-, hcode | ⟨ev, hcode, hnew⟩⟩ := hm.code_cases (Nat.ne_of_lt hsh)
  · exact hold (hcode ▸ he)
  · -- the last event of the shell is the fork, or it comes later
    rw [hcode] at he
    obtain rfl | ⟨fs', x, rfl⟩ := fs.eq_nil_or_concat
    · obtain ⟨rfl, hev⟩ := List.append_inj' he rfl
      obtain ⟨hlt, hr, hc⟩ := hnew q (List.cons.inj hev).1
      exact ⟨hlt, hr.trans hroot, hc ▸ List.prefix_refl _⟩
    · rw [List.concat_eq_append, ← List.cons_append, ← List.append_assoc] at he
      exact hold (List.append_inj' he rfl).1

theorem History.children {sh : Pid} (h : History m s₀ ss H t) (hsh : sh < s₀.nextPid) :
    KnowsChildren t.nextPid sh H := by
  induction h with
  | start =>
    intro es q fs he
    cases es <;> cases he
  | move h hm ih =>
    obtain ⟨hle, hnative⟩ := h.run.native
    exact ih.move hm (hnative sh hsh).1 (Nat.lt_of_lt_of_le hsh hle)

theorem Run.children {sh : Pid} (h : Run m s₀ H t) (hsh : sh < s₀.nextPid) :
    KnowsChildren t.nextPid sh H := by
  obtain ⟨ss, h⟩ := h.exists_history
  exact h.children hsh

end PipeShell
