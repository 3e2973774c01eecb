import Mathlib.Logic.Function.Basic
import PipeShell.Kernel.Run
import PipeShell.Proofs.Kernel.Effect

/-! Runs of a system. In a run any process that can make a step may be the next to make one; any
call that can fail at all may be refused with any error; signals may come from outside; and the
clock, the files and the input from outside may change. A run keeps the past of each process: from
which process of the first state it comes, and what happened to it and its ancestors since then.
Main statements: what the system does is such a run (`Run.step`, `Run.run`), and what is true of a
process at the start and is kept by what can happen to a process is true of every process of the run
(`Run.invariant`). -/
namespace PipeShell

variable {ι ρ : Type}

def Process.next? (m : Machine ι) (p : Process ι ρ) :
    Option ((c : Syscall) × (c.Reply → Control ι ρ)) :=
  if p.isStopped then none
  else match p.control with
    | .code (.call c again k) => some ⟨c, fun r => if again r then p.control else .code (k r)⟩
    | .image i => some ⟨(m.move i).1, fun r => .image ((m.move i).2 r)⟩
    | _ => none

theorem Process.next?_eq_some {m : Machine ι} {p : Process ι ρ} {c : Syscall}
    {k : c.Reply → Control ι ρ} (h : p.next? m = some ⟨c, k⟩) :
    (∃ again k', p.control = .code (.call c again k') ∧
      k = fun r => if again r then p.control else .code (k' r)) ∨
    ∃ (i : ι) (j : c.Reply → ι), p.control = .image i ∧ k = fun r => .image (j r) := by
  unfold Process.next? at h
  split at h
  · cases h
  · split at h
    · rename_i c' again k' hc
      cases h
      exact .inl ⟨again, k', hc, rfl⟩
    · rename_i i hc
      cases h
      exact .inr ⟨i, _, hc, rfl⟩
    · cases h

/-- What a process has gone through: the process of the first state that it comes from, the events
of its code, those of its ancestors included, and if it has become a program those since then. -/
structure Past where
  root : Pid
  code : List Event
  image : Option (List Event)

namespace Past

def start (pid : Pid) : Past := ⟨pid, [], none⟩

def events (h : Past) : List Event := h.code ++ h.image.getD []

def record (h : Past) (p : Process ι ρ) (e : Event) : Past :=
  if p.control.isCode then { h with code := h.code ++ [e] }
  else { h with image := some (h.image.getD [] ++ [e]) }

def become (h : Past) : Past := { h with image := some (h.image.getD []) }

theorem root_record (h : Past) (p : Process ι ρ) (e : Event) : (h.record p e).root = h.root := by
  unfold record
  split <;> rfl

theorem own_record {h : Past} {e : Event} (ho : Own h.events) (he : e.isBirth = false)
    (p : Process ι ρ) : Own (h.record p e).events := by
  obtain ⟨hc, hi⟩ := own_append.1 ho
  unfold record events
  split
  · simp [hc, hi, he]
  · simp [hc, hi, he]

theorem update_become (H : Pid → Past) (q pid : Pid) :
    (Function.update H q (H q).become pid).root = (H pid).root ∧
      (Function.update H q (H q).become pid).code = (H pid).code ∧
      (Function.update H q (H q).become pid).image.getD [] = (H pid).image.getD [] := by
  rw [Function.update_apply]
  split
  · subst pid
    exact ⟨rfl, rfl, rfl⟩
  · exact ⟨rfl, rfl, rfl⟩

end Past

def Natives (n : Pid) (H : Pid → Past) : Prop :=
  ∀ pid < n, (H pid).root = pid ∧ Own (H pid).events

theorem Natives.update {n q : Pid} {H : Pid → Past} {past : Past} (h : Natives n H)
    (hq : q < n → past.root = q ∧ Own past.events) : Natives n (Function.update H q past) := by
  intro pid hpid
  rw [Function.update_apply]
  split
  · rename_i he
    exact he ▸ hq (he ▸ hpid)
  · exact h pid hpid

theorem Natives.record {n q : Pid} {H : Pid → Past} {e : Event} (h : Natives n H)
    (he : e.isBirth = false) (p : Process ι ρ) :
    Natives n (Function.update H q ((H q).record p e)) := by
  refine h.update fun hq => ?_
  obtain ⟨hr, ho⟩ := h q hq
  exact ⟨(Past.root_record _ _ _).trans hr, Past.own_record ho he p⟩

/-- Replies by which a call is refused, whatever the state of the system is. -/
inductive Refusal : (c : Syscall) → c.Reply → Prop
  | fork (e : Errno) : Refusal .fork (.error e)
  | exec (path : Bytes) (argv : List Bytes) (e : Errno) : Refusal (.exec path argv) e
  | wait (child : Pid) (e : Errno) : Refusal (.wait child) (.error e)
  | kill (target : Pid) (n : Signal) (e : Errno) : Refusal (.kill target n) (.error e)
  | pipe (e : Errno) : Refusal .pipe (.error e)
  | dup2 (a b : Fd) (e : Errno) : Refusal (.dup2 a b) (.error e)
  | openFile (path : Bytes) (mode : OpenMode) (e : Errno) :
      Refusal (.openFile path mode) (.error e)
  | read (fd : Fd) (n : Nat) (e : Errno) : Refusal (.read fd n) (.error e)
  | write (fd : Fd) (data : Bytes) (e : Errno) : Refusal (.write fd data) (.error e)
  | stat (fd : Fd) (e : Errno) : Refusal (.stat fd) (.error e)
  | chdir (path : Bytes) (e : Errno) : Refusal (.chdir path) (.error e)
  | access (path : Bytes) (e : Errno) : Refusal (.access path) (.error e)
  | listDirectory (path : Bytes) (e : Errno) : Refusal (.listDirectory path) (.error e)

theorem Refusal.isNeutral {c : Syscall} {r : c.Reply} (h : Refusal c r) :
    Event.isNeutral ⟨c, r⟩ = true := by
  cases h <;> rfl

theorem Refusal.isBirth {c : Syscall} {r : c.Reply} (h : Refusal c r) :
    Event.isBirth ⟨c, r⟩ = false := by
  cases h <;> rfl

theorem System.nextPid_modifyProcess (s : System ι ρ) (pid : Pid)
    (f : Process ι ρ → Process ι ρ) : (s.modifyProcess pid f).nextPid = s.nextPid := by
  unfold System.modifyProcess
  split <;> rfl

theorem System.isBirth_of_answer {s s' : System ι ρ} {pid : Pid} {p : Process ι ρ} {c : Syscall}
    {r : c.Reply} (h : s.answer pid p c = some (r, s')) : Event.isBirth ⟨c, r⟩ = false := by
  cases c with
  | fork =>
    simp only [System.answer] at h
    split at h
    · cases h
    · cases h
      rfl
  | _ => rfl

/-- A run of a system from `s₀` to `s`, and the pasts of the processes. -/
inductive Run (m : Machine ι) (s₀ : System ι ρ) : (Pid → Past) → System ι ρ → Prop
  | start : Run m s₀ Past.start s₀
  | answered {H : Pid → Past} {s s' : System ι ρ} {pid : Pid} {p : Process ι ρ} {c : Syscall}
      {k : c.Reply → Control ι ρ} {r : c.Reply} (h : Run m s₀ H s)
      (hp : s.process? pid = some p) (hn : p.next? m = some ⟨c, k⟩)
      (ha : s.answer pid p c = some (r, s')) :
      Run m s₀ (Function.update H pid ((H pid).record p ⟨c, r⟩)) (s'.resume pid (k r))
  | refused {H : Pid → Past} {s : System ι ρ} {pid : Pid} {p : Process ι ρ} {c : Syscall}
      {k : c.Reply → Control ι ρ} {r : c.Reply} (h : Run m s₀ H s)
      (hp : s.process? pid = some p) (hn : p.next? m = some ⟨c, k⟩) (hr : Refusal c r) :
      Run m s₀ (Function.update H pid ((H pid).record p ⟨c, r⟩)) (s.resume pid (k r))
  | forked {H : Pid → Past} {s : System ι ρ} {pid : Pid} {p : Process ι ρ}
      {k : Syscall.fork.Reply → Control ι ρ} (h : Run m s₀ H s)
      (hp : s.process? pid = some p) (hn : p.next? m = some ⟨.fork, k⟩)
      (hf : s.mayFork p = true) :
      Run m s₀
        (Function.update
          (Function.update H pid ((H pid).record p ⟨.fork, .ok (.parent s.nextPid)⟩))
          s.nextPid ((H pid).record p ⟨.fork, .ok .child⟩))
        (s.fork pid p (k (.ok .child)) fun new => k (.ok (.parent new)))
  | became {H : Pid → Past} {s : System ι ρ} {pid : Pid} {p : Process ι ρ} {path name : Bytes}
      {argv argv' : List Bytes} {k : (Syscall.exec path argv).Reply → Control ι ρ}
      (h : Run m s₀ H s) (hp : s.process? pid = some p)
      (hn : p.next? m = some ⟨.exec path argv, k⟩)
      (hf : s.files.program p.credentials p.directory Header.depth path argv = .ok (name, argv')) :
      Run m s₀ (Function.update H pid (H pid).become) (s.setProcess pid
        { p with
          control := .image (m.load name argv')
          descriptors := p.descriptors.filter fun d => !d.closeOnExec })
  | exited {H : Pid → Past} {s : System ι ρ} {pid : Pid} {p : Process ι ρ} {code : Int32}
      {k : (Syscall.exit code).Reply → Control ι ρ} (h : Run m s₀ H s)
      (hp : s.process? pid = some p) (hn : p.next? m = some ⟨.exit code, k⟩) :
      Run m s₀ H (s.finish pid (.exited (ExitCode.status code)))
  | broken {H : Pid → Past} {s s' : System ι ρ} {pid : Pid} {p : Process ι ρ} {fd : Fd}
      {data : Bytes} {k : (Syscall.write fd data).Reply → Control ι ρ} {r : Except Errno Nat}
      (h : Run m s₀ H s) (hp : s.process? pid = some p)
      (hn : p.next? m = some ⟨.write fd data, k⟩) (hw : s.write p fd data = some (r, s'))
      (hb : p.breaks r = true) :
      Run m s₀ H (s'.finish pid (.signaled Signal.brokenPipe))
  | signaled {H : Pid → Past} {s : System ι ρ} (h : Run m s₀ H s) (pid : Pid) (n : Signal) :
      Run m s₀ H (s.modifyProcess pid (·.signaled n))
  | outside {H : Pid → Past} {s s' : System ι ρ} (h : Run m s₀ H s)
      (hp : s'.processes = s.processes) (ho : s'.openFiles = s.openFiles)
      (hq : s'.pipes = s.pipes) (hn : s'.nextPid = s.nextPid) : Run m s₀ H s'

namespace Run

variable {m : Machine ι} {s₀ s s' : System ι ρ} {H : Pid → Past} {pid : Pid} {p : Process ι ρ}

theorem perform {c : Syscall} {k : c.Reply → Control ι ρ} (h : Run m s₀ H s)
    (hp : s.process? pid = some p) (hn : p.next? m = some ⟨c, k⟩)
    (hs : s.perform m pid p c k = some s') : ∃ H', Run m s₀ H' s' := by
  unfold System.perform at hs
  cases ha : s.answer pid p c with
  | some x =>
    obtain ⟨r, s₁⟩ := x
    rw [ha] at hs
    obtain rfl := Option.some.inj hs
    exact ⟨_, h.answered hp hn ha⟩
  | none =>
    simp only [ha, System.depart] at hs
    split at hs
    · cases hs
      exact ⟨_, h.exited hp hn⟩
    · split at hs
      · rename_i hf
        cases hs
        exact ⟨_, h.forked hp hn hf⟩
      · cases hs
    · split at hs
      · cases hs
      · rename_i hf
        cases hs
        exact ⟨_, h.became hp hn hf⟩
    · split at hs
      · rename_i hw
        split at hs
        · rename_i hb
          cases hs
          exact ⟨_, h.broken hp hn hw hb⟩
        · cases hs
      · cases hs
    · cases hs

theorem step (h : Run m s₀ H s) (hs : s.step m pid = some s') : ∃ H', Run m s₀ H' s' := by
  unfold System.step at hs
  cases hp : s.process? pid with
  | none => rw [hp] at hs; cases hs
  | some p =>
    simp only [hp, Option.bind_eq_bind, Option.bind_some] at hs
    split at hs
    · cases hs
    · rename_i hstop
      split at hs
      · rename_i c again k hc
        refine h.perform hp ?_ hs
        simp [Process.next?, hstop, hc]
      · rename_i i hc
        refine h.perform hp ?_ hs
        simp [Process.next?, hstop, hc]
      · cases hs

theorem run (main : Pid) (fuel : Nat) (last : Pid) (h : Run m s₀ H s) :
    ∃ H', Run m s₀ H' (s.run m main fuel last) := by
  induction fuel generalizing H s last with
  | zero => exact ⟨H, h⟩
  | succ fuel ih =>
    rw [System.run]
    split
    · exact ⟨H, h⟩
    · split
      · exact ⟨H, h⟩
      · exact ⟨H, h⟩
      · split
        · rename_i pid s' hs
          obtain ⟨q, -, hq⟩ := List.exists_of_findSome?_eq_some hs
          obtain ⟨t, ht, he⟩ := Option.map_eq_some_iff.1 hq
          obtain ⟨rfl, rfl⟩ := Prod.mk.inj he
          obtain ⟨H', h'⟩ := h.step ht
          exact ih _ h'
        · split
          · exact ih _ (h.outside rfl rfl rfl rfl)
          · exact ⟨H, h⟩

theorem grown (h : Run m s₀ H s) : System.Grown s₀ s := by
  induction h with
  | start => exact .refl s₀
  | answered _ hp _ ha ih =>
    exact (ih.trans (System.answer_effect ha hp).grown).trans (System.grown_modifyProcess _ _ _)
  | refused _ _ _ _ ih => exact ih.trans (System.grown_modifyProcess _ _ _)
  | forked _ _ _ _ ih => exact ih.trans (System.grown_fork _ _ _ _ _)
  | became _ _ _ _ ih => exact ih.trans (.of_eq rfl rfl)
  | exited _ _ _ ih => exact ih.trans (System.grown_modifyProcess _ _ _)
  | broken _ _ _ hw _ ih =>
    exact (ih.trans (System.write_eq_some hw).1).trans (System.grown_modifyProcess _ _ _)
  | signaled _ pid n ih => exact ih.trans (System.grown_modifyProcess _ _ _)
  | outside _ _ ho hq _ ih => exact ih.trans (.of_eq ho hq)

theorem native (h : Run m s₀ H s) : s₀.nextPid ≤ s.nextPid ∧ Natives s₀.nextPid H := by
  induction h with
  | start => exact ⟨Nat.le_refl _, fun pid _ => ⟨rfl, own_nil⟩⟩
  | answered h hp hn ha ih =>
    refine ⟨?_, ih.2.record (System.isBirth_of_answer ha) _⟩
    rw [System.resume, System.nextPid_modifyProcess, (System.answer_effect ha hp).nextPid]
    exact ih.1
  | refused h hp hn hr ih =>
    refine ⟨?_, ih.2.record hr.isBirth _⟩
    rw [System.resume, System.nextPid_modifyProcess]
    exact ih.1
  | forked h hp hn hf ih =>
    refine ⟨?_, (ih.2.record rfl _).update fun hlt => ?_⟩
    · rw [System.fork, System.resume, System.nextPid_modifyProcess]
      exact Nat.le_succ_of_le ih.1
    · exact absurd ih.1 (Nat.not_le_of_lt hlt)
  | became h hp hn hf ih =>
    refine ⟨ih.1, ih.2.update fun hlt => ?_⟩
    obtain ⟨hr, ho⟩ := ih.2 _ hlt
    exact ⟨hr, by simpa [Past.become, Past.events] using ho⟩
  | exited h hp hn ih =>
    rw [System.finish, System.nextPid_modifyProcess]
    exact ih
  | broken h hp hn hw hb ih =>
    rw [System.finish, System.nextPid_modifyProcess, (System.write_eq_some hw).2.2]
    exact ih
  | signaled h pid n ih =>
    rw [System.nextPid_modifyProcess]
    exact ih
  | outside h hp ho hq hn ih =>
    rw [hn]
    exact ih

end Run

namespace System

variable {m : Machine ι} {s s' : System ι ρ} {pid q : Pid} {p p' x y : Process ι ρ}

def Numbered (s : System ι ρ) : Prop := ∀ pid p, s.process? pid = some p → pid < s.nextPid

theorem Numbered.mono (hs : s.Numbered) (hn : s.nextPid ≤ s'.nextPid)
    (h : ∀ q y, s'.process? q = some y → q < s'.nextPid ∨ ∃ x, s.process? q = some x) :
    s'.Numbered := by
  intro q y hy
  obtain hq | ⟨x, hx⟩ := h q y hy
  · exact hq
  · exact Nat.lt_of_lt_of_le (hs q x hx) hn

theorem Numbered.modifyProcess (hs : s.Numbered) (pid : Pid) (f : Process ι ρ → Process ι ρ) :
    (s.modifyProcess pid f).Numbered := by
  refine hs.mono (Nat.le_of_eq (nextPid_modifyProcess s pid f).symm) fun q y hy => .inr ?_
  rw [process?_modifyProcess] at hy
  split at hy
  · obtain ⟨x, hx, -⟩ := Option.map_eq_some_iff.1 hy
    exact ⟨x, hx⟩
  · exact ⟨y, hy⟩

theorem Numbered.setProcess (hs : s.Numbered) (hp : s.process? pid = some p) (p' : Process ι ρ) :
    (s.setProcess pid p').Numbered := by
  refine hs.mono (Nat.le_refl _) fun q y hy => .inr ?_
  rw [process?_setProcess] at hy
  split at hy
  · rename_i hq
    exact ⟨p, hq ▸ hp⟩
  · exact ⟨y, hy⟩

theorem Numbered.answered {e : Event} (hs : s.Numbered) (hp : s.process? pid = some p)
    (h : Answered s s' pid p e) : s'.Numbered := by
  obtain ⟨-, hn, p', -, hf⟩ := h
  refine hs.mono (Nat.le_of_eq hn.symm) fun q y hy => .inr ?_
  obtain ⟨x, hx, -⟩ := hf q y hy
  split at hx
  · rename_i hq
    exact ⟨p, hq ▸ hp⟩
  · exact ⟨x, hx⟩

theorem Numbered.fork (hs : s.Numbered) (pid : Pid) (p : Process ι ρ) (child : Control ι ρ)
    (parent : Pid → Control ι ρ) : (s.fork pid p child parent).Numbered := by
  refine Numbered.modifyProcess (Numbered.mono hs (Nat.le_succ _) fun q y hy => ?_) pid _
  rw [process?_setProcess] at hy
  split at hy
  · rename_i hq
    exact .inl (hq ▸ Nat.lt_succ_self _)
  · exact .inr ⟨y, hy⟩

theorem process?_resume {c : Control ι ρ} (h : (s.resume pid c).process? q = some y) :
    ∃ x, s.process? q = some x ∧
      if q = pid then y = match x.control with
        | .ended _ => x
        | _ => { x with control := c }
      else y = x := by
  unfold resume at h
  rw [process?_modifyProcess] at h
  split at h
  · obtain ⟨x, hx, rfl⟩ := Option.map_eq_some_iff.1 h
    rename_i hq
    exact ⟨x, hx, (if_pos hq).mpr rfl⟩
  · rename_i hq
    exact ⟨y, h, by rw [if_neg hq]⟩

/-- What signals may make of a process. -/
def Touched (x y : Process ι ρ) : Prop :=
  y = x ∨ (∃ b, y = { x with isStopped := b }) ∨ ∃ n, y = x.finish (.signaled n)

theorem touched_signaled (x : Process ι ρ) (n : Signal) : Touched x (x.signaled n) := by
  unfold Process.signaled
  split
  · exact .inl rfl
  · split
    · exact .inl rfl
    · split
      · exact .inr (.inl ⟨_, rfl⟩)
      · split
        · exact .inr (.inl ⟨_, rfl⟩)
        · exact .inr (.inr ⟨n, rfl⟩)

theorem touched_resume {x z : Process ι ρ} {c : Control ι ρ} (hx : x.control.termination? = none)
    (hz : Touched x z) (hy : y = match z.control with
      | .ended _ => z
      | _ => { z with control := c }) : Touched { x with control := c } y := by
  have hne : ∀ t, x.control ≠ .ended t := by
    intro t ht
    rw [ht] at hx
    cases hx
  obtain rfl | ⟨b, rfl⟩ | ⟨n, rfl⟩ := hz
  · split at hy
    · exact absurd ‹_› (hne _)
    · exact .inl hy
  · split at hy
    · exact absurd ‹_› (hne _)
    · exact .inr (.inl ⟨b, hy⟩)
  · exact .inr (.inr ⟨n, hy⟩)

end System

/-- What is true of the processes of `s₀` and is kept by all that can happen to a process. -/
structure Preserved (m : Machine ι) (s₀ : System ι ρ)
    (I : System ι ρ → Pid → Past → Process ι ρ → Prop) : Prop where
  start : ∀ {pid p}, s₀.process? pid = some p → I s₀ pid (Past.start pid) p
  grown : ∀ {s s' pid h p}, System.Grown s s' → I s pid h p → I s' pid h p
  event : ∀ {s s' pid h p p' c k r}, System.Grown s₀ s → I s' pid h p →
    p.next? m = some ⟨c, k⟩ → System.Effect s s' p ⟨c, r⟩ p' →
    I s' pid (h.record p ⟨c, r⟩) { p' with control := k r }
  birth : ∀ {s pid h p k new}, System.Grown s₀ s → I s pid h p → p.next? m = some ⟨.fork, k⟩ →
    I s new (h.record p ⟨.fork, .ok .child⟩)
      { p with parent := pid, control := k (.ok .child), alarm := none }
  become : ∀ {s pid h p path argv k i}, I s pid h p → p.next? m = some ⟨.exec path argv, k⟩ →
    I s pid h.become
      { p with control := .image i, descriptors := p.descriptors.filter fun d => !d.closeOnExec }
  exited : ∀ {s pid h p code k}, I s pid h p → p.next? m = some ⟨.exit code, k⟩ →
    I s pid h (p.finish (.exited (ExitCode.status code)))
  signaled : ∀ {s pid h p n}, I s pid h p → I s pid h (p.finish (.signaled n))
  stopped : ∀ {s pid h p b}, I s pid h p → I s pid h { p with isStopped := b }

def Everywhere (I : System ι ρ → Pid → Past → Process ι ρ → Prop) (s : System ι ρ)
    (H : Pid → Past) : Prop :=
  ∀ pid p, s.process? pid = some p → I s pid (H pid) p

namespace Preserved

variable {m : Machine ι} {s₀ s s' : System ι ρ} {I : System ι ρ → Pid → Past → Process ι ρ → Prop}
  {pid : Pid} {h : Past} {p p' x y : Process ι ρ}

theorem touched (hI : Preserved m s₀ I) (hx : I s pid h x) (hy : System.Touched x y) :
    I s pid h y := by
  obtain rfl | ⟨b, rfl⟩ | ⟨n, rfl⟩ := hy
  · exact hx
  · exact hI.stopped hx
  · exact hI.signaled hx

theorem termination?_of_next? {c : Syscall} {k : c.Reply → Control ι ρ}
    (hn : p.next? m = some ⟨c, k⟩) : p.control.termination? = none := by
  obtain ⟨again, k', hc, -⟩ | ⟨i, j, hc, -⟩ := Process.next?_eq_some hn <;> rw [hc] <;> rfl

theorem resumed (hI : Preserved m s₀ I) {c : Syscall} {k : c.Reply → Control ι ρ} {r : c.Reply}
    (hs : System.Grown s₀ s) (hg : System.Grown s s') (hp : I s pid h p)
    (hn : p.next? m = some ⟨c, k⟩) (he : System.Effect s s' p ⟨c, r⟩ p')
    (hx : System.Touched p' x) (hy : y = match x.control with
      | .ended _ => x
      | _ => { x with control := k r }) : I s' pid (h.record p ⟨c, r⟩) y := by
  refine hI.touched (hI.event hs (hI.grown hg hp) hn he) (System.touched_resume ?_ hx hy)
  rw [he.control_eq]
  exact termination?_of_next? hn

section Everywhere

variable {H : Pid → Past} {c : Syscall} {k : c.Reply → Control ι ρ} {r : c.Reply}

theorem everywhere_of_eq (hI : Preserved m s₀ I) (hg : System.Grown s s')
    (hp : s'.processes = s.processes) (h : Everywhere I s H) : Everywhere I s' H :=
  fun q y hy => hI.grown hg (h q y (by rwa [System.process?, hp] at hy))

theorem everywhere_modify (hI : Preserved m s₀ I) {f : Process ι ρ → Process ι ρ}
    (h : Everywhere I s H) (hf : ∀ x, s.process? pid = some x → I s pid (H pid) (f x)) :
    Everywhere I (s.modifyProcess pid f) H := by
  intro q y hy
  refine hI.grown (System.grown_modifyProcess s pid f) ?_
  rw [System.process?_modifyProcess] at hy
  split at hy
  · rename_i hq
    obtain ⟨x, hx, rfl⟩ := Option.map_eq_some_iff.1 hy
    subst hq
    exact hf x hx
  · exact h q y hy

theorem everywhere_resume (hI : Preserved m s₀ I) (hs : System.Grown s₀ s)
    (h : Everywhere I s H) (hp : s.process? pid = some p) (hn : p.next? m = some ⟨c, k⟩)
    (hg : System.Grown s s') (he : System.Effect s s' p ⟨c, r⟩ p')
    (hf : System.Follows s s' pid p') :
    Everywhere I (s'.resume pid (k r)) (Function.update H pid ((H pid).record p ⟨c, r⟩)) := by
  intro q y hy
  refine hI.grown (System.grown_modifyProcess s' pid _) ?_
  obtain ⟨x, hx, hxy⟩ := System.process?_resume hy
  obtain ⟨z, hz, hzx⟩ := hf q x hx
  have ht : System.Touched z x := by
    obtain rfl | ⟨n, rfl⟩ := hzx
    · exact .inl rfl
    · exact System.touched_signaled z n
  by_cases hq : q = pid
  · subst hq
    rw [if_pos rfl] at hz hxy
    subst hz
    rw [Function.update_self]
    exact hI.resumed hs hg (h q p hp) hn he ht hxy
  · rw [if_neg hq] at hz hxy
    subst hxy
    rw [Function.update_of_ne hq]
    exact hI.touched (hI.grown hg (h q z hz)) ht

theorem everywhere_fork (hI : Preserved m s₀ I) {k : Syscall.fork.Reply → Control ι ρ}
    (hs : System.Grown s₀ s) (h : Everywhere I s H) (hp : s.process? pid = some p)
    (hn : p.next? m = some ⟨.fork, k⟩) (hne : pid ≠ s.nextPid) :
    Everywhere I (s.fork pid p (k (.ok .child)) fun new => k (.ok (.parent new)))
      (Function.update
        (Function.update H pid ((H pid).record p ⟨.fork, .ok (.parent s.nextPid)⟩))
        s.nextPid ((H pid).record p ⟨.fork, .ok .child⟩)) := by
  intro q y hy
  refine hI.grown (System.grown_fork s pid p _ _) ?_
  obtain ⟨x, hx, hxy⟩ := System.process?_resume hy
  rw [System.process?_setProcess] at hx
  by_cases hq : q = s.nextPid
  · -- the child
    subst hq
    rw [if_pos rfl] at hx
    rw [if_neg hne.symm] at hxy
    obtain rfl := Option.some.inj hx
    subst hxy
    rw [Function.update_self]
    exact hI.birth hs (h pid p hp) hn
  · rw [if_neg hq] at hx
    rw [Function.update_of_ne hq]
    by_cases hq' : q = pid
    · subst hq'
      obtain rfl : p = x := Option.some.inj (hp.symm.trans hx)
      rw [if_pos rfl] at hxy
      rw [Function.update_self]
      exact hI.resumed hs (.refl s) (h q p hp) hn (System.neutral_self rfl) (.inl rfl) hxy
    · rw [if_neg hq'] at hxy
      rw [Function.update_of_ne hq', hxy]
      exact h q x hx

theorem everywhere_become (hI : Preserved m s₀ I) {path : Bytes} {argv : List Bytes}
    {k : (Syscall.exec path argv).Reply → Control ι ρ} {i : ι} (h : Everywhere I s H)
    (hp : s.process? pid = some p) (hn : p.next? m = some ⟨.exec path argv, k⟩) :
    Everywhere I
      (s.setProcess pid { p with
        control := .image i
        descriptors := p.descriptors.filter fun d => !d.closeOnExec })
      (Function.update H pid (H pid).become) := by
  intro q y hy
  refine hI.grown (s := s) (.of_eq rfl rfl) ?_
  rw [System.process?_setProcess] at hy
  by_cases hq : q = pid
  · subst hq
    rw [if_pos rfl] at hy
    obtain rfl := Option.some.inj hy
    rw [Function.update_self]
    exact hI.become (h q p hp) hn
  · rw [if_neg hq] at hy
    rw [Function.update_of_ne hq]
    exact h q y hy

end Everywhere

end Preserved

namespace Run

variable {m : Machine ι} {s₀ s : System ι ρ} {H : Pid → Past}

theorem numbered (h : Run m s₀ H s) (hs : s₀.Numbered) : s.Numbered := by
  induction h with
  | start => exact hs
  | answered _ hp _ ha ih =>
    exact (ih.answered hp (System.answer_effect ha hp)).modifyProcess _ _
  | refused _ _ _ _ ih => exact ih.modifyProcess _ _
  | forked _ _ _ _ ih => exact ih.fork _ _ _ _
  | became _ hp _ _ ih => exact ih.setProcess hp _
  | exited _ _ _ ih => exact ih.modifyProcess _ _
  | broken _ _ _ hw _ ih =>
    obtain ⟨-, hp, hn⟩ := System.write_eq_some hw
    refine System.Numbered.modifyProcess ?_ _ _
    intro q y hy
    rw [hn]
    exact ih q y (by rwa [System.process?, hp] at hy)
  | signaled _ pid n ih => exact ih.modifyProcess _ _
  | outside _ hp _ _ hn ih =>
    intro q y hy
    rw [hn]
    exact ih q y (by rwa [System.process?, hp] at hy)

/-- What is true of the processes at the start and is kept by all that can happen to a process is
true of every process of a run. -/
theorem invariant {I : System ι ρ → Pid → Past → Process ι ρ → Prop} (h : Run m s₀ H s)
    (hs : s₀.Numbered) (hI : Preserved m s₀ I) :
    ∀ pid p, s.process? pid = some p → I s pid (H pid) p := by
  change Everywhere I s H
  induction h with
  | start => exact fun pid p hp => hI.start hp
  | answered h hp hn ha ih =>
    obtain ⟨hg, -, p', he, hf⟩ := System.answer_effect ha hp
    exact hI.everywhere_resume h.grown ih hp hn hg he hf
  | refused h hp hn hr ih =>
    exact hI.everywhere_resume h.grown ih hp hn (.refl _) (System.neutral_self hr.isNeutral)
      (System.follows_of_eq hp rfl)
  | forked h hp hn hf ih =>
    exact hI.everywhere_fork h.grown ih hp hn (Nat.ne_of_lt (h.numbered hs _ _ hp))
  | became h hp hn hf ih => exact hI.everywhere_become ih hp hn
  | @exited H s pid p code k h hp hn ih =>
    refine hI.everywhere_modify ih fun x hx => ?_
    obtain rfl : p = x := Option.some.inj (hp.symm.trans hx)
    exact hI.exited (ih pid p hp) hn
  | @broken H s s' pid p fd data k r h hp hn hw hb ih =>
    obtain ⟨hg, hps, -⟩ := System.write_eq_some hw
    have ih' : Everywhere I s' H := hI.everywhere_of_eq hg hps ih
    exact hI.everywhere_modify ih' fun x hx => hI.signaled (ih' pid x hx)
  | signaled h pid n ih =>
    exact hI.everywhere_modify ih fun x hx => hI.touched (ih pid x hx) (System.touched_signaled x n)
  | outside h hp ho hq hn ih => exact hI.everywhere_of_eq (.of_eq ho hq) hp ih

end Run

end PipeShell
