import PipeShell.Proofs.Kernel.History
import PipeShell.Proofs.Shell.Holders

/-! Waiting for the stages of a job. Each stage is waited for once more as long as that is
interrupted, and then the next one, whatever the reply was. Main statement: after the first wait
every stage has the outcome of its own child or, if that could not be had, no status; the error is
that of the first stage without one; and no later wait changes a status, in whatever order the
children end (`waiting_independent_of_order`). -/
namespace PipeShell

open Program

/-- A wait for a child, made again until it is not interrupted. -/
structure Attempt where
  child : Pid
  interruptions : Nat
  reply : Except Errno Termination
  final : reply ≠ .error Errno.interrupted

namespace Attempt

variable (a : Attempt)

def events : List Event :=
  List.replicate a.interruptions ⟨.wait a.child, .error Errno.interrupted⟩ ++
    [⟨.wait a.child, a.reply⟩]

def status : Except Errno WaitStatus :=
  match a.reply with
  | .error e => .error e
  | .ok t => match WaitStatus.ofTermination? t with
    | some w => .ok w
    | none => .error Errno.invalid

variable {a}

theorem status_eq_ok_iff {w : WaitStatus} :
    a.status = .ok w ↔ ∃ t, a.reply = .ok t ∧ WaitStatus.ofTermination? t = some w := by
  unfold status
  cases a.reply with
  | error e => simp
  | ok t => cases h : WaitStatus.ofTermination? t <;> simp [h]

theorem status_ne_interrupted : a.status ≠ .error Errno.interrupted := by
  have hfinal := a.final
  unfold status
  split
  · rename_i e h
    exact fun he => hfinal (h.trans (congrArg _ (Except.error.inj he)))
  · split
    · exact nofun
    · have hne : Errno.invalid ≠ Errno.interrupted := by decide
      exact fun he => hne (Except.error.inj he)

end Attempt

variable {es : List Event} {pid : Pid}

theorem Attempt.returns_wait_iff {r : Except Errno Termination} : (wait pid).Returns es r ↔
    ∃ a : Attempt, a.child = pid ∧ a.reply = r ∧ es = a.events := by
  rw [Program.returns_wait_iff]
  constructor
  · rintro ⟨hr, n, rfl⟩
    exact ⟨⟨pid, n, r, hr⟩, rfl, rfl, rfl⟩
  · rintro ⟨⟨child, n, r, hr⟩, rfl, rfl, rfl⟩
    exact ⟨hr, n, rfl⟩

theorem returns_waitFor_iff {x : Except Errno WaitStatus} : (waitFor pid).Returns es x ↔
    ∃ a : Attempt, a.child = pid ∧ a.status = x ∧ es = a.events := by
  have hstatus : ∀ (a : Attempt) es, (match a.reply with
      | .error e => done (.error e)
      | .ok t => match WaitStatus.ofTermination? t with
        | some s => done (.ok s)
        | none => done (.error Errno.invalid) : Program (Except Errno WaitStatus)).Returns es x ↔
      es = [] ∧ a.status = x := by
    intro a es
    unfold Attempt.status
    cases a.reply with
    | error e => simp [eq_comm]
    | ok t => cases h : WaitStatus.ofTermination? t <;> simp [h, eq_comm]
  unfold waitFor
  rw [returns_bind_iff]
  constructor
  · rintro ⟨r, es₁, es₂, rfl, h₁, h₂⟩
    obtain ⟨a, hchild, rfl, rfl⟩ := Attempt.returns_wait_iff.1 h₁
    obtain ⟨rfl, hx⟩ := (hstatus a es₂).1 h₂
    exact ⟨a, hchild, hx, List.append_nil _⟩
  · rintro ⟨a, hchild, hx, rfl⟩
    exact ⟨a.reply, a.events, [], (List.append_nil _).symm,
      Attempt.returns_wait_iff.2 ⟨a, hchild, rfl, rfl⟩,
      (hstatus a []).2 ⟨rfl, hx⟩⟩

def Stage.learn (s : Stage) : Except Errno WaitStatus → Stage
  | .ok w => { s with status := some w }
  | .error _ => s

def failure? : Except Errno WaitStatus → Option Errno
  | .ok _ => none
  | .error e => some e

def firstError (as : List Attempt) : Option Errno := as.findSome? fun a => failure? a.status

theorem firstError_cons (a : Attempt) (as : List Attempt) :
    firstError (a :: as) = (failure? a.status).or (firstError as) := by
  cases h : failure? a.status <;> simp [firstError, h]

theorem waitStages_cons (s : Stage) (ss : List Stage) :
    Job.waitStages (s :: ss) = waitFor s.pid >>= fun x => Job.waitStages ss >>= fun y =>
      done (s.learn x :: y.1, (failure? x).or y.2) := by
  rw [Job.waitStages]
  refine congrArg _ (funext fun x => ?_)
  cases x <;> rfl

theorem returns_waitStages_iff {ss ss' : List Stage} {e : Option Errno} :
    (Job.waitStages ss).Returns es (ss', e) ↔ ∃ as : List Attempt,
      as.map Attempt.child = ss.map Stage.pid ∧ es = as.flatMap Attempt.events ∧
      ss' = List.zipWith (fun s a => s.learn a.status) ss as ∧ e = firstError as := by
  induction ss generalizing es ss' e with
  | nil =>
    rw [Job.waitStages]
    constructor
    · intro h
      obtain ⟨rfl, h⟩ := returns_done_iff.1 h
      cases h
      exact ⟨[], rfl, rfl, rfl, rfl⟩
    · rintro ⟨as, has, rfl, rfl, rfl⟩
      obtain rfl := List.map_eq_nil_iff.1 has
      exact .refl _
  | cons s ss ih =>
    rw [waitStages_cons, returns_bind_iff]
    constructor
    · rintro ⟨x, es₁, es₂, rfl, h₁, h₂⟩
      obtain ⟨a, hchild, rfl, rfl⟩ := returns_waitFor_iff.1 h₁
      obtain ⟨⟨ts, e'⟩, es₃, es₄, rfl, h₃, h₄⟩ := returns_bind_iff.1 h₂
      obtain ⟨as, has, rfl, rfl, rfl⟩ := ih.1 h₃
      obtain ⟨rfl, h⟩ := returns_done_iff.1 h₄
      obtain ⟨rfl, rfl⟩ := Prod.mk.inj h
      exact ⟨a :: as, by simp [hchild, has], by simp, rfl, (firstError_cons a as).symm⟩
    · rintro ⟨as, has, rfl, rfl, rfl⟩
      obtain ⟨a, as, rfl, hchild, has⟩ := List.map_eq_cons_iff.1 has
      have hrest := ih.2 ⟨as, has, rfl, rfl, rfl⟩
      refine ⟨a.status, a.events, as.flatMap Attempt.events, by simp,
        returns_waitFor_iff.2 ⟨a, hchild, rfl, rfl⟩, returns_bind_iff.2
          ⟨_, _, [], (List.append_nil _).symm, hrest, returns_done_iff.2 ⟨rfl, ?_⟩⟩⟩
      rw [firstError_cons]
      rfl

def Job.learn (j : Job) (as : List Attempt) : Job :=
  ⟨List.zipWith (fun s a => s.learn a.status) j.stages as⟩

theorem returns_jobWait_iff {j j' : Job} {e : Option Errno} : j.wait.Returns es (j', e) ↔
    ∃ as : List Attempt, as.map Attempt.child = j.stages.map Stage.pid ∧
      es = as.flatMap Attempt.events ∧ j' = j.learn as ∧ e = firstError as := by
  rw [Job.wait, returns_bind_iff]
  constructor
  · rintro ⟨⟨ss, e'⟩, es₁, es₂, rfl, h₁, h₂⟩
    obtain ⟨as, has, rfl, rfl, rfl⟩ := returns_waitStages_iff.1 h₁
    obtain ⟨rfl, h⟩ := returns_done_iff.1 h₂
    obtain ⟨rfl, rfl⟩ := Prod.mk.inj h
    exact ⟨as, has, List.append_nil _, rfl, rfl⟩
  · rintro ⟨as, has, rfl, rfl, rfl⟩
    exact ⟨_, _, [], (List.append_nil _).symm, returns_waitStages_iff.2 ⟨as, has, rfl, rfl, rfl⟩,
      returns_done_iff.2 ⟨rfl, rfl⟩⟩

/-- Waits for a job one after the other. -/
inductive Job.Waits : Job → List Event → Job → Prop
  | nil (j : Job) : Waits j [] j
  | cons {j j₁ j₂ : Job} {es fs : List Event} {e : Option Errno} (h : j.wait.Returns es (j₁, e))
      (hs : Waits j₁ fs j₂) : Waits j (es ++ fs) j₂

/-- A job for the children `pids`: their stages in order, the last of which is the terminal one. -/
structure Job.For (pids : List Pid) (j : Job) : Prop where
  children : j.stages.map Stage.pid = pids
  stage : ∀ i s, j.stages[i]? = some s →
    s.index = i ∧ (s.isTerminal = true ↔ i + 1 = pids.length)

section Learning

variable {j j' : Job} {as : List Attempt} {pids : List Pid} {i : Nat} {x : Stage}

theorem Stage.learn_eq (s : Stage) (x : Except Errno WaitStatus) :
    s.learn x = { s with status := x.toOption.or s.status } := by
  cases x <;> rfl

theorem Job.getElem?_learn (has : as.map Attempt.child = j.stages.map Stage.pid)
    (hx : (j.learn as).stages[i]? = some x) : ∃ s a, j.stages[i]? = some s ∧ as[i]? = some a ∧
      a.child = s.pid ∧ x = s.learn a.status := by
  rw [Job.learn, List.getElem?_zipWith] at hx
  split at hx
  · rename_i s a hs ha
    have hchild := congrArg (·[i]?) has
    simp only [List.getElem?_map, hs, ha, Option.map_some, Option.some.injEq] at hchild
    exact ⟨s, a, hs, ha, hchild, (Option.some.inj hx).symm⟩
  · cases hx

theorem Job.length_learn (has : as.map Attempt.child = j.stages.map Stage.pid) :
    (j.learn as).stages.length = j.stages.length := by
  have hlen : as.length = j.stages.length := by simpa using congrArg List.length has
  simp [Job.learn, hlen]

theorem Job.For.learn (hj : j.For pids) (has : as.map Attempt.child = j.stages.map Stage.pid) :
    (j.learn as).For pids where
  children := by
    rw [← hj.children]
    refine List.ext_getElem? fun i => ?_
    rw [List.getElem?_map, List.getElem?_map]
    cases hx : (j.learn as).stages[i]? with
    | none =>
      have hle := List.getElem?_eq_none_iff.1 hx
      rw [Job.length_learn has] at hle
      rw [List.getElem?_eq_none hle]
    | some x =>
      obtain ⟨s, a, hs, -, -, rfl⟩ := Job.getElem?_learn has hx
      rw [hs, Stage.learn_eq]
      rfl
  stage i x hx := by
    obtain ⟨s, a, hs, -, -, rfl⟩ := Job.getElem?_learn has hx
    rw [Stage.learn_eq]
    exact hj.stage i s hs

theorem Job.For.waits (hj : j.For pids) (h : j.Waits es j') : j'.For pids := by
  induction h with
  | nil j => exact hj
  | cons h _ ih =>
    obtain ⟨as, has, rfl, rfl, rfl⟩ := returns_jobWait_iff.1 h
    exact ih (hj.learn has)

theorem Job.For.terminal (hj : j.For pids) : j.terminal = j.stages.getLast? := by
  have hlen : pids.length = j.stages.length := by simp [← hj.children]
  cases hlast : j.stages.getLast? with
  | none =>
    rw [Job.terminal, List.getLast?_eq_none_iff.1 hlast]
    rfl
  | some s =>
    rw [List.getLast?_eq_getElem?] at hlast
    obtain ⟨hlt, rfl⟩ := List.getElem?_eq_some_iff.1 hlast
    refine List.find?_eq_some_iff_getElem.2 ⟨(hj.stage _ _ hlast).2.2 (by omega), _, hlt, rfl, ?_⟩
    intro k hk
    have hk' := (hj.stage k _ (List.getElem?_eq_getElem (by omega))).2
    simp only [Bool.not_eq_true', Bool.eq_false_iff]
    exact fun ht => by have := hk'.1 ht; omega

theorem Job.Waits.isSome (h : j.Waits es j') {s : Stage} (hs : j.stages[i]? = some s)
    (hsome : s.status.isSome) :
    ∃ s', j'.stages[i]? = some s' ∧ s'.pid = s.pid ∧ s'.status.isSome := by
  induction h generalizing s with
  | nil j => exact ⟨s, hs, rfl, hsome⟩
  | cons h _ ih =>
    obtain ⟨as, has, rfl, rfl, rfl⟩ := returns_jobWait_iff.1 h
    obtain ⟨hlt, -⟩ := List.getElem?_eq_some_iff.1 hs
    have hx := List.getElem?_eq_getElem (Job.length_learn has ▸ hlt)
    obtain ⟨s', a, hs', -, -, hx'⟩ := Job.getElem?_learn has hx
    obtain rfl := Option.some.inj (hs.symm.trans hs')
    rw [hx', Stage.learn_eq] at hx
    obtain ⟨s', hs', hpid, hsome'⟩ := ih hx (by simp [hsome])
    exact ⟨s', hs', hpid, hsome'⟩

end Learning

/-- Forks for a job that all succeed, as the parent sees them. -/
inductive JobBuilder.Pushes : JobBuilder → List Event → JobBuilder → Prop
  | nil (b : JobBuilder) : Pushes b [] b
  | cons {b b₁ b₂ : JobBuilder} {es fs : List Event} {pid : Pid}
      (h : b.pushFork.Returns es (.ok (.parent pid, b₁))) (hs : Pushes b₁ fs b₂) :
      Pushes b (es ++ fs) b₂

section Forks

variable {b b' : JobBuilder} {pids : List Pid}

theorem returns_pushFork_parent_iff : b.pushFork.Returns es (.ok (.parent pid, b')) ↔
    es = [⟨.fork, .ok (.parent pid)⟩] ∧ b' = b.push pid := by
  constructor
  · intro h
    obtain ⟨x, es₁, es₂, rfl, h₁, h₂⟩ := returns_bind_iff.1 h
    obtain rfl := returns_fork_iff.1 h₁
    match x with
    | .error e => cases (returns_done_iff.1 h₂).2
    | .ok .child =>
      obtain ⟨-, fs₁, fs₂, rfl, -, h₃⟩ := returns_bind_iff.1 h₂
      cases (returns_done_iff.1 h₃).2
    | .ok (.parent pid') =>
      obtain ⟨rfl, hx⟩ := returns_done_iff.1 h₂
      obtain ⟨hpid, rfl⟩ := Prod.mk.inj (Except.ok.inj hx)
      cases hpid
      exact ⟨rfl, rfl⟩
  · rintro ⟨rfl, rfl⟩
    exact returns_pushFork_parent b pid

theorem JobBuilder.pushes_iff :
    b.Pushes es b' ↔ ∃ pids, es = forks pids ∧ b' = pids.foldl push b := by
  constructor
  · intro h
    induction h with
    | nil b => exact ⟨[], rfl, rfl⟩
    | cons h _ ih =>
      obtain ⟨rfl, rfl⟩ := returns_pushFork_parent_iff.1 h
      obtain ⟨pids, rfl, rfl⟩ := ih
      exact ⟨_ :: pids, rfl, rfl⟩
  · rintro ⟨pids, rfl, rfl⟩
    induction pids generalizing b with
    | nil => exact .nil b
    | cons pid pids ih => exact .cons (returns_pushFork_parent b pid) ih

theorem JobBuilder.stages_foldl_push (pids : List Pid) (b : JobBuilder) :
    (pids.foldl push b).stages = b.stages ++ pids.mapIdx fun i pid =>
      ⟨pid, b.stages.length + i, b.stages.length + i + 1 == b.size, none⟩ := by
  induction pids generalizing b with
  | nil => simp
  | cons pid pids ih =>
    rw [List.foldl_cons, ih, List.mapIdx_cons]
    simp [push, Nat.add_assoc, Nat.add_comm 1]

theorem JobBuilder.getElem?_build {i : Nat} {s : Stage}
    (h : (pids.foldl push (ofSize pids.length)).build.stages[i]? = some s) :
    ∃ pid, pids[i]? = some pid ∧ s = ⟨pid, i, i + 1 == pids.length, none⟩ := by
  rw [build, stages_foldl_push, ofSize, List.nil_append, List.getElem?_mapIdx] at h
  obtain ⟨pid, hpid, rfl⟩ := Option.map_eq_some_iff.1 h
  exact ⟨pid, hpid, by simp⟩

theorem JobBuilder.for_build (pids : List Pid) :
    (pids.foldl push (ofSize pids.length)).build.For pids where
  children := by simp [build, pids_foldl_push, ofSize]
  stage i s hs := by
    obtain ⟨pid, -, rfl⟩ := getElem?_build hs
    exact ⟨rfl, beq_iff_eq⟩

theorem JobBuilder.statuses_learn {as : List Attempt} (has : as.map Attempt.child = pids) :
    ((pids.foldl push (ofSize pids.length)).build.learn as).stages.map Stage.status =
      as.map fun a => a.status.toOption := by
  have hpids := (for_build pids).children
  have hlen : as.length = pids.length := by simpa using congrArg List.length has
  refine List.ext_getElem? fun i => ?_
  rw [List.getElem?_map, List.getElem?_map]
  cases hx : ((pids.foldl push (ofSize pids.length)).build.learn as).stages[i]? with
  | none =>
    have hle := List.getElem?_eq_none_iff.1 hx
    rw [Job.length_learn (has.trans hpids.symm), ← List.length_map Stage.pid, hpids] at hle
    rw [List.getElem?_eq_none (hlen ▸ hle)]
    rfl
  | some x =>
    obtain ⟨s, a, hs, ha, -, rfl⟩ := Job.getElem?_learn (has.trans hpids.symm) hx
    obtain ⟨pid, -, rfl⟩ := getElem?_build hs
    rw [ha, Stage.learn_eq]
    simp

end Forks

section Histories

variable {ι ρ : Type} {m : Machine ι} {s₀ t : System ι ρ} {ss : List (System ι ρ)}
  {H : Pid → Past} {sh : Pid} {j j' : Job} {as : List Attempt} {fs : List Event}

def statusOf (ss : List (System ι ρ)) (pid : Pid) : Option WaitStatus :=
  (outcome? ss pid).bind WaitStatus.ofTermination?

/-- Whether what is recorded of the stages of a job is how their children have ended. -/
def Job.TrueTo (ss : List (System ι ρ)) (j : Job) : Prop :=
  ∀ s ∈ j.stages, ∀ w, s.status = some w → statusOf ss s.pid = some w

variable (h : History m s₀ ss H t) (hs : s₀.Numbered)
include h hs

theorem History.outcome_of_attempt (hes : ∀ e ∈ as.flatMap Attempt.events, e ∈ (H sh).code)
    {a : Attempt} (ha : a ∈ as) {e : Termination} (he : a.reply = .ok e) :
    outcome? ss a.child = some e := by
  have hlast : (⟨.wait a.child, a.reply⟩ : Event) ∈ a.events :=
    List.mem_append_right _ (List.mem_singleton_self _)
  rw [he] at hlast
  exact (h.outcome_of_wait hs (hes _ (List.mem_flatMap.2 ⟨a, ha, hlast⟩))).1

theorem Job.TrueTo.learn (hj : j.TrueTo ss) (has : as.map Attempt.child = j.stages.map Stage.pid)
    (hes : ∀ e ∈ as.flatMap Attempt.events, e ∈ (H sh).code) : (j.learn as).TrueTo ss := by
  intro x hx w hw
  obtain ⟨i, hi⟩ := List.mem_iff_getElem?.1 hx
  obtain ⟨s, a, hs', ha, hchild, rfl⟩ := Job.getElem?_learn has hi
  rw [Stage.learn_eq] at hw ⊢
  cases hstatus : a.status with
  | error e =>
    rw [hstatus] at hw
    exact hj s (List.mem_of_getElem? hs') w hw
  | ok w' =>
    rw [hstatus] at hw
    obtain rfl : w' = w := Option.some.inj hw
    obtain ⟨e, he, hdecoded⟩ := Attempt.status_eq_ok_iff.1 hstatus
    have ho := h.outcome_of_attempt hs hes (List.mem_of_getElem? ha) he
    show statusOf ss s.pid = some w'
    rw [← hchild, statusOf, ho]
    exact hdecoded

theorem Job.TrueTo.waits (hj : j.TrueTo ss) (hw : j.Waits fs j')
    (hes : ∀ e ∈ fs, e ∈ (H sh).code) : j'.TrueTo ss := by
  induction hw with
  | nil j => exact hj
  | cons hw _ ih =>
    obtain ⟨as, has, rfl, rfl, rfl⟩ := returns_jobWait_iff.1 hw
    exact ih (hj.learn h hs has fun e he => hes e (List.mem_append_left _ he))
      fun e he => hes e (List.mem_append_right _ he)

omit hs in
theorem History.child_of_forks (hsh : sh < s₀.nextPid) {pids : List Pid} {before after : List Event}
    (hcode : (H sh).code = before ++ forks pids ++ after) {i : Nat} {pid : Pid}
    (hi : pids[i]? = some pid) :
    (H pid).root = sh ∧ before ++ forks (pids.take i) ++ [birth] <+: (H pid).code := by
  obtain ⟨hlt, rfl⟩ := List.getElem?_eq_some_iff.1 hi
  have hsplit : forks pids = forks (pids.take i) ++
      ⟨.fork, .ok (.parent pids[i])⟩ :: forks (pids.drop (i + 1)) := by
    rw [← forks_cons, ← List.drop_eq_getElem_cons hlt, ← forks_append, List.take_append_drop]
  rw [hsplit] at hcode
  obtain ⟨-, hroot, hpre⟩ := h.children hsh (before ++ forks (pids.take i)) pids[i]
    (forks (pids.drop (i + 1)) ++ after) (by simpa using hcode)
  exact ⟨hroot, hpre⟩

end Histories

variable {ι ρ : Type}

/-- Waiting for a job of `n` forked children does not depend on the order of events. A wait is an
attempt for each child in turn, whatever comes of those before it, and its error is that of the
first that fails; after the first wait each stage has the status that its own attempt tells, or
none. Before and after every wait the stages are those of the children, and the last is the terminal
one. Whatever happens in the system, and in whatever order the children end: a child is the process
that was forked for it, an attempt that is answered tells how that process has ended, and a status
that is recorded is that and stays so. -/
theorem waiting_independent_of_order {n : Nat} {bs : List Event} {b : JobBuilder}
    (hb : (JobBuilder.ofSize n).Pushes bs b) (hn : b.stages.length = n) :
    ∃ pids : List Pid, pids.length = n ∧ bs = forks pids ∧
      (∀ es j e, b.build.wait.Returns es (j, e) ↔ ∃ as : List Attempt,
        as.map Attempt.child = pids ∧ es = as.flatMap Attempt.events ∧ e = firstError as ∧
        j = b.build.learn as) ∧
      (∀ as : List Attempt, as.map Attempt.child = pids →
        ((b.build.learn as).stages.map Stage.status = as.map fun a => a.status.toOption) ∧
          ∀ a ∈ as, a.status ≠ .error Errno.interrupted) ∧
      (∀ es j, b.build.Waits es j → j.For pids ∧ j.terminal = j.stages.getLast?) ∧
      ∀ (m : Machine ι) (s₀ t : System ι ρ) ss H sh, s₀.Numbered → History m s₀ ss H t →
        (sh < s₀.nextPid → ∀ before after, (H sh).code = before ++ bs ++ after →
          ∀ i pid, pids[i]? = some pid →
            (H pid).root = sh ∧ before ++ forks (pids.take i) ++ [birth] <+: (H pid).code) ∧
        (∀ as : List Attempt, (∀ e ∈ as.flatMap Attempt.events, e ∈ (H sh).code) →
          ∀ a ∈ as, ∀ e, a.reply = .ok e → outcome? ss a.child = some e) ∧
        ∀ es fs j j', b.build.Waits es j → j.Waits fs j' → (∀ e ∈ es ++ fs, e ∈ (H sh).code) →
          ∀ (i : Nat) (s : Stage) w, j.stages[i]? = some s → s.status = some w →
            statusOf ss s.pid = some w ∧
              ∃ s' : Stage, j'.stages[i]? = some s' ∧ s'.pid = s.pid ∧ s'.status = some w := by
  obtain ⟨pids, rfl, rfl⟩ := JobBuilder.pushes_iff.1 hb
  obtain rfl : pids.length = n := by
    rw [← hn, ← List.length_map Stage.pid, pids_foldl_push]
    simp [JobBuilder.ofSize]
  have hfor := JobBuilder.for_build pids
  refine ⟨pids, rfl, rfl, fun es j e => ?_, fun as has =>
    ⟨JobBuilder.statuses_learn has, fun _ _ => Attempt.status_ne_interrupted⟩,
    fun es j hw => ⟨hfor.waits hw, (hfor.waits hw).terminal⟩, ?_⟩
  · rw [returns_jobWait_iff, hfor.children]
    exact exists_congr fun as => and_congr_right fun _ => and_congr_right fun _ => and_comm
  · intro m s₀ t ss H sh hs h
    refine ⟨fun hsh before after hcode i pid => h.child_of_forks hsh hcode,
      fun as hes a ha e => h.outcome_of_attempt hs hes ha, ?_⟩
    intro es fs j j' hw hw' hes i s w hi hsome
    -- at first nothing is recorded
    have htrue : (pids.foldl JobBuilder.push (JobBuilder.ofSize pids.length)).build.TrueTo ss := by
      intro s hs w hw
      obtain ⟨i, hi⟩ := List.mem_iff_getElem?.1 hs
      obtain ⟨pid, -, rfl⟩ := JobBuilder.getElem?_build hi
      cases hw
    have hj := htrue.waits h hs hw fun e he => hes e (List.mem_append_left _ he)
    have hj' := hj.waits h hs hw' fun e he => hes e (List.mem_append_right _ he)
    have hknown := hj s (List.mem_of_getElem? hi) w hsome
    obtain ⟨s', hi', hpid, hsome'⟩ := hw'.isSome hi (by simp [hsome])
    obtain ⟨w', hw'⟩ := Option.isSome_iff_exists.1 hsome'
    have hknown' := hj' s' (List.mem_of_getElem? hi') w' hw'
    rw [hpid, hknown] at hknown'
    obtain rfl := Option.some.inj hknown'
    exact ⟨hknown, s', hi', hpid, hw'⟩

namespace TwoStages

theorem run_waited : ∃ H t, Run machine boot H t ∧
    (H 1).code = forks [2, 3] ++ [⟨.close 3, .ok ()⟩, ⟨.close 4, .ok ()⟩,
      ⟨.wait 2, .error Errno.interrupted⟩, ⟨.wait 2, .ok (.exited 1)⟩,
      ⟨.wait 3, .ok (.exited 1)⟩] ∧ (H 3).image = none := by
  let ds := descriptors
  have h : Run machine boot _
    (system ((Table.empty.set 1 (process 0 _ ds true)).set 2 (process 1 _ ds true)) 3) :=
    ((Run.start (m := machine)).forked (rfl : boot.process? 1 = some _) rfl rfl :)
  have h : Run machine boot _
    (forked (process 0 _ ds true) (process 1 _ ds true) (process 1 _ ds true)) :=
    (h.forked (rfl : System.process? _ 1 = some _) rfl rfl :)
  -- the second stage
  let ds₂ := ds.set 0 ⟨3, false⟩
  have h : Run machine boot _
    (forked (process 0 _ ds true) (process 1 _ ds true) (process 1 _ ds false)) :=
    (h.answered (rfl : System.process? _ 3 = some _) rfl rfl :)
  have h : Run machine boot _
    (forked (process 0 _ ds true) (process 1 _ ds true) (process 1 _ ds₂ false)) :=
    (h.answered (rfl : System.process? _ 3 = some _) rfl rfl :)
  have h : Run machine boot _
    (forked (process 0 _ ds true) (process 1 _ ds true) (process 1 _ (ds₂.erase 3) false)) :=
    (h.answered (rfl : System.process? _ 3 = some _) rfl rfl :)
  have h : Run machine boot _
    (forked (process 0 _ ds true) (process 1 _ ds true) (process 1 _ fed false)) :=
    (h.answered (rfl : System.process? _ 3 = some _) rfl rfl :)
  have h : Run machine boot _
    (forked (process 0 _ ds true) (process 1 _ ds true) (process 1 _ fed false)) :=
    (h.refused (rfl : System.process? _ 3 = some _) rfl (.openFile _ _ Errno.noEntry) :)
  have h : Run machine boot _
    (forked (process 0 _ ds true) (process 1 _ ds true)
      ((process 1 _ fed false).finish (.exited 1))) :=
    (h.exited (rfl : System.process? _ 3 = some _) rfl :)
  -- the first stage
  let ds₁ := ds.set 1 ⟨4, false⟩
  have h : Run machine boot _
    (forked (process 0 _ ds true) (process 1 _ ds false) _) :=
    (h.answered (rfl : System.process? _ 2 = some _) rfl rfl :)
  have h : Run machine boot _
    (forked (process 0 _ ds true) (process 1 _ ds₁ false) _) :=
    (h.answered (rfl : System.process? _ 2 = some _) rfl rfl :)
  have h : Run machine boot _
    (forked (process 0 _ ds true) (process 1 _ (ds₁.erase 3) false) _) :=
    (h.answered (rfl : System.process? _ 2 = some _) rfl rfl :)
  have h : Run machine boot _
    (forked (process 0 _ ds true) (process 1 _ feeding false) _) :=
    (h.answered (rfl : System.process? _ 2 = some _) rfl rfl :)
  have h : Run machine boot _
    (forked (process 0 _ ds true) (process 1 _ feeding false) _) :=
    (h.refused (rfl : System.process? _ 2 = some _) rfl (.openFile _ _ Errno.noEntry) :)
  have h : Run machine boot _
    (forked (process 0 _ ds true) ((process 1 _ feeding false).finish (.exited 1)) _) :=
    (h.exited (rfl : System.process? _ 2 = some _) rfl :)
  -- the shell
  have h : Run machine boot _ (forked (process 0 _ (ds.erase 3) true) _ _) :=
    (h.answered (rfl : System.process? _ 1 = some _) rfl rfl :)
  have h : Run machine boot _ (forked (process 0 _ dropped true) _ _) :=
    (h.answered (rfl : System.process? _ 1 = some _) rfl rfl :)
  have h : Run machine boot _ (forked (process 0 _ dropped true) _ _) :=
    (h.refused (rfl : System.process? _ 1 = some _) rfl (.wait _ Errno.interrupted) :)
  have h := (h.answered (rfl : System.process? _ 1 = some _) rfl rfl :)
  have h := (h.answered (rfl : System.process? _ 1 = some _) rfl rfl :)
  exact ⟨_, _, h, rfl, rfl⟩

end TwoStages

open TwoStages in
/-- Both stages of `cat | cat` have ended, the second one first, when the shell waits for them; the
first wait is interrupted once. -/
theorem waiting_of_two :
    let b := [2, 3].foldl JobBuilder.push (JobBuilder.ofSize 2)
    (JobBuilder.ofSize 2).Pushes (forks [2, 3]) b ∧ ∃ ss H t j, History machine boot ss H t ∧
      b.build.wait.Returns [⟨.wait 2, .error Errno.interrupted⟩, ⟨.wait 2, .ok (.exited 1)⟩,
        ⟨.wait 3, .ok (.exited 1)⟩] (j, none) ∧
      j.stages.map Stage.status = [some (.exited 1), some (.exited 1)] ∧
      outcome? ss 2 = some (.exited 1) ∧ outcome? ss 3 = some (.exited 1) ∧
      forks [2] ++ [birth] <+: (H 3).code := by
  intro b
  have hb : (JobBuilder.ofSize 2).Pushes (forks [2, 3]) b :=
    JobBuilder.pushes_iff.2 ⟨[2, 3], rfl, rfl⟩
  obtain ⟨H, t, hrun, hcode, -⟩ := run_waited
  obtain ⟨ss, h⟩ := hrun.exists_history
  obtain ⟨pids, -, hpids, hwait, hfirst, -, hhistory⟩ :=
    waiting_independent_of_order (ι := Unit) (ρ := UInt8) hb rfl
  obtain rfl := forks_inj hpids
  obtain ⟨hchild, hanswer, -⟩ := hhistory machine boot t ss H 1 numbered h
  let as : List Attempt :=
    [⟨2, 1, .ok (.exited 1), nofun⟩, ⟨3, 0, .ok (.exited 1), nofun⟩]
  have hevents : ∀ e ∈ as.flatMap Attempt.events, e ∈ (H 1).code := by
    rw [hcode]
    intro e he
    exact List.mem_append_right _ (List.mem_cons_of_mem _ (List.mem_cons_of_mem _ he))
  refine ⟨hb, ss, H, t, _, h, (hwait _ _ _).2 ⟨as, rfl, rfl, rfl, rfl⟩, ?_, ?_, ?_, ?_⟩
  · exact (hfirst as rfl).1
  · exact hanswer as hevents _ List.mem_cons_self _ rfl
  · exact hanswer as hevents ⟨3, 0, .ok (.exited 1), nofun⟩ (by simp [as]) _ rfl
  · exact (hchild (by decide) [] _ hcode 1 3 rfl).2

end PipeShell
