import PipeShell.Proofs.Program.Trace

/-! Which calls a program makes. The same program runs in a process and in the children forked in
its course, so what is said of a call may depend on the side on which it is made. Main statement: a
property of calls that was read off the program holds of the calls of every list of events that the
program can go through (`Calls.of_reaches`). -/
namespace PipeShell

def inChild (es : List Event) : Bool := es.any Event.isBirth

@[simp] theorem inChild_nil : inChild [] = false := rfl

@[simp] theorem inChild_cons (e : Event) (es : List Event) :
    inChild (e :: es) = (e.isBirth || inChild es) := rfl

@[simp] theorem inChild_append (es fs : List Event) :
    inChild (es ++ fs) = (inChild es || inChild fs) := List.any_append

theorem inChild_eq_false_iff {es : List Event} : inChild es = false ↔ Own es := by
  simp [inChild, Own]

theorem own_of_not_fork {es : List Event} (h : ∀ e ∈ es, e.call ≠ .fork) : Own es := by
  rintro ⟨c, r⟩ he
  have hc : c ≠ .fork := h _ he
  cases c <;> first | rfl | exact absurd rfl hc

namespace Program

variable {α β : Type} {P : Bool → Syscall → Prop}

/-- Every call of `p` satisfies `P`, and what it returns satisfies `Q`; the truth value says whether
the process is a child by then. -/
def Calls (P : Bool → Syscall → Prop) (Q : Bool → α → Prop) : Bool → Program α → Prop
  | b, done a => Q b a
  | b, call c again k => P b c ∧ (∀ r, again r = true → (⟨c, r⟩ : Event).isBirth = false) ∧
    ∀ r, again r = false → (k r).Calls P Q (b || (⟨c, r⟩ : Event).isBirth)

variable {Q : Bool → α → Prop} {b : Bool}

@[simp] theorem calls_done (a : α) : (done a).Calls P Q b ↔ Q b a := .rfl

@[simp] theorem calls_bind (p : Program α) (f : α → Program β) (Q : Bool → β → Prop) :
    (p >>= f).Calls P Q b ↔ p.Calls P (fun b a => (f a).Calls P Q b) b := by
  induction p generalizing b with
  | done a => rfl
  | call c again k ih => simp only [call_bind, Calls, ih]

theorem calls_ask {c : Syscall} {Q : Bool → c.Reply → Prop} :
    (ask c).Calls P Q b ↔ P b c ∧ ∀ r, Q (b || (⟨c, r⟩ : Event).isBirth) r := by
  simp [ask, Calls]

theorem isBirth_of_ne_fork {c : Syscall} (hc : c ≠ .fork) (r : c.Reply) :
    (⟨c, r⟩ : Event).isBirth = false := by
  unfold Event.isBirth
  split
  · simp_all
  · rfl

theorem calls_ask_of_ne_fork {c : Syscall} (hc : c ≠ .fork) {Q : Bool → c.Reply → Prop} :
    (ask c).Calls P Q b ↔ P b c ∧ ∀ r, Q b r := by
  simp [calls_ask, isBirth_of_ne_fork hc]

theorem calls_persistent {c : Syscall} {again : c.Reply → Bool} {e : c.Reply} (hc : c ≠ .fork)
    (he : ∀ x, again x = true ↔ x = e) {Q : Bool → c.Reply → Prop} :
    (call c again done).Calls P Q b ↔ P b c ∧ ∀ r, r ≠ e → Q b r := by
  have hagain : ∀ x, again x = false ↔ x ≠ e := fun x => by
    rw [← Bool.not_eq_true, he]
  simp [Calls, isBirth_of_ne_fork hc, hagain]

section Wrappers

variable {fd fd' : Fd} {s : Bytes}

@[simp] theorem calls_exit {code : Int32} {Q : Bool → Empty → Prop} :
    (exit code).Calls P Q b ↔ P b (.exit code) :=
  (calls_ask_of_ne_fork (c := .exit code) nofun).trans (and_iff_left nofun)

@[simp] theorem calls_fork {Q : Bool → Except Errno ForkSide → Prop} :
    fork.Calls P Q b ↔ P b .fork ∧ (∀ e, Q b (.error e)) ∧ Q true (.ok .child) ∧
      ∀ child, Q b (.ok (.parent child)) := by
  refine (calls_ask (c := .fork)).trans (and_congr_right fun _ => ⟨fun h => ?_, fun h r => ?_⟩)
  · exact ⟨fun e => by simpa [Event.isBirth] using h (.error e),
      by simpa [Event.isBirth] using h (.ok .child),
      fun child => by simpa [Event.isBirth] using h (.ok (.parent child))⟩
  · match r with
    | .error e => simpa [Event.isBirth] using h.1 e
    | .ok .child => simpa [Event.isBirth] using h.2.1
    | .ok (.parent child) => simpa [Event.isBirth] using h.2.2 child

@[simp] theorem calls_exec {argv : List Bytes} {Q : Bool → Errno → Prop} :
    (exec s argv).Calls P Q b ↔ P b (.exec s argv) ∧ ∀ e, Q b e :=
  calls_ask_of_ne_fork (c := .exec s argv) nofun

@[simp] theorem calls_wait {child : Pid} {Q : Bool → Except Errno Termination → Prop} :
    (wait child).Calls P Q b ↔ P b (.wait child) ∧ ∀ r, r ≠ .error Errno.interrupted → Q b r :=
  calls_persistent (c := .wait child) nofun fun _ => interrupted_eq_true_iff

@[simp] theorem calls_kill {child : Pid} {n : Signal} {Q : Bool → Except Errno Unit → Prop} :
    (kill child n).Calls P Q b ↔ P b (.kill child n) ∧ ∀ r, Q b r :=
  calls_ask_of_ne_fork (c := .kill child n) nofun

@[simp] theorem calls_defaultBrokenPipe {Q : Bool → Unit → Prop} :
    defaultBrokenPipe.Calls P Q b ↔ P b .defaultBrokenPipe ∧ Q b () :=
  (calls_ask_of_ne_fork (c := .defaultBrokenPipe) nofun).trans
    (and_congr_right fun _ => ⟨fun h => h (), fun h _ => h⟩)

@[simp] theorem calls_pipe {Q : Bool → Except Errno (Fd × Fd) → Prop} :
    pipe.Calls P Q b ↔ P b .pipe ∧ ∀ r, Q b r :=
  calls_ask_of_ne_fork (c := .pipe) nofun

@[simp] theorem calls_dup2 {Q : Bool → Except Errno Unit → Prop} :
    (dup2 fd fd').Calls P Q b ↔ P b (.dup2 fd fd') ∧ ∀ r, Q b r :=
  calls_ask_of_ne_fork (c := .dup2 fd fd') nofun

@[simp] theorem calls_close {Q : Bool → Except Errno Unit → Prop} :
    (close fd).Calls P Q b ↔ P b (.close fd) ∧ ∀ r, Q b r :=
  calls_ask_of_ne_fork (c := .close fd) nofun

@[simp] theorem calls_write {Q : Bool → Except Errno Nat → Prop} :
    (write fd s).Calls P Q b ↔ P b (.write fd s) ∧ ∀ r, r ≠ .error Errno.interrupted → Q b r :=
  calls_persistent (c := .write fd s) nofun fun _ => interrupted_eq_true_iff

@[simp] theorem calls_read {n : Nat} {Q : Bool → Except Errno Bytes → Prop} :
    (read fd n).Calls P Q b ↔ P b (.read fd n) ∧ ∀ r, Q b r :=
  calls_ask_of_ne_fork (c := .read fd n) nofun

theorem calls_writeAll (hP : ∀ s, P b (.write fd s)) {Q : Bool → Except Errno Unit → Prop}
    (hQ : ∀ r, Q b r) (s : Bytes) : (writeAll fd s).Calls P Q b := by
  induction s using writeAll.induct with
  | case1 => rw [writeAll, if_pos rfl]; exact hQ _
  | case2 s hs ih =>
    rw [writeAll, if_neg hs, calls_bind, calls_write]
    refine ⟨hP s, fun r _ => ?_⟩
    obtain e | _ | k := r
    · exact hQ _
    · exact hQ _
    · exact ih k

@[simp] theorem calls_openFile {mode : OpenMode} {Q : Bool → Except Errno Fd → Prop} :
    (openFile s mode).Calls P Q b ↔
      P b (.openFile s mode) ∧ ∀ r, r ≠ .error Errno.interrupted → Q b r :=
  calls_persistent (c := .openFile s mode) nofun fun _ => interrupted_eq_true_iff

@[simp] theorem calls_environmentPath {Q : Bool → Option Bytes → Prop} :
    environmentPath.Calls P Q b ↔ P b .environmentPath ∧ ∀ r, Q b r :=
  calls_ask_of_ne_fork (c := .environmentPath) nofun

theorem calls_chdir {Q : Bool → Except Errno Unit → Prop} (hP : P b (.chdir s))
    (hQ : ∀ r, Q b r) : (chdir s).Calls P Q b := by
  by_cases h : Byte.nul ∈ s
  · rw [chdir_of_mem h]; exact hQ _
  · rw [chdir_of_notMem h]
    exact (calls_ask_of_ne_fork (c := .chdir s) nofun).2 ⟨hP, hQ⟩

theorem calls_executable {Q : Bool → Bool → Prop} (hP : P b (.access s)) (hQ : ∀ r, Q b r) :
    (executable s).Calls P Q b := by
  by_cases h : Byte.nul ∈ s
  · rw [executable_of_mem h]; exact hQ _
  · rw [executable_of_notMem h, calls_bind]
    refine (calls_ask_of_ne_fork (c := .access s) nofun).2 ⟨hP, fun r => ?_⟩
    match r with
    | .ok () => exact hQ _
    | .error _ => exact hQ _

end Wrappers

theorem Calls.mono {Q' : Bool → α → Prop} {p : Program α} (h : p.Calls P Q b)
    (hQ : ∀ b a, Q b a → Q' b a) : p.Calls P Q' b := by
  induction p generalizing b with
  | done a => exact hQ b a h
  | call c again k ih => exact ⟨h.1, h.2.1, fun r hr => ih r (h.2.2 r hr)⟩

@[simp] theorem calls_never {p : Program Empty} {Q : Bool → α → Prop} :
    (never p : Program α).Calls P Q b ↔ p.Calls P (fun _ _ => True) b := by
  rw [never, calls_bind]
  exact ⟨fun h => h.mono fun _ _ _ => trivial, fun h => h.mono fun _ a => a.elim⟩

/-- Each call of a list of events satisfies `P` on the side on which it is made. -/
def EventsSatisfy (P : Bool → Syscall → Prop) (b : Bool) (es : List Event) : Prop :=
  match es with
  | [] => True
  | e :: es => P b e.call ∧ EventsSatisfy P (b || e.isBirth) es

theorem Calls.of_reaches {p q : Program α} {es : List Event} (h : p.Calls P Q b)
    (hr : p.Reaches es q) : EventsSatisfy P b es ∧ q.Calls P Q (b || inChild es) := by
  induction hr generalizing b with
  | refl => simpa [EventsSatisfy] using h
  | next hr _ ih =>
    obtain ⟨h₁, h₂⟩ := ih (h.2.2 _ hr)
    exact ⟨⟨h.1, h₁⟩, by simpa [Bool.or_assoc] using h₂⟩
  | again hr _ ih =>
    have hb := h.2.1 _ hr
    obtain ⟨h₁, h₂⟩ := ih h
    exact ⟨⟨h.1, by simpa [hb] using h₁⟩, by simpa [hb] using h₂⟩

theorem Calls.of_exits {p : Program α} {es : List Event} {code : Int32} (h : p.Calls P Q b)
    (hr : p.Exits es code) : P (b || inChild es) (.exit code) := by
  obtain ⟨again, k, hr⟩ := hr
  exact (h.of_reaches hr).2.1

theorem Calls.of_reaches_call {p : Program α} {f : α → Program β} {es : List Event}
    (h : p.Calls P Q b) {c : Syscall} {again : c.Reply → Bool} {k : c.Reply → Program β}
    (hr : (p >>= f).Reaches es (call c again k)) :
    P (b || inChild es) c ∨ ∃ a es₁ es₂, es = es₁ ++ es₂ ∧ p.Returns es₁ a := by
  obtain ⟨q, hq, hk⟩ | ⟨a, es₁, es₂, he, h₁, -⟩ := reaches_bind_iff.1 hr
  · cases q with
    | done a => exact .inr ⟨a, es, [], (List.append_nil es).symm, hq⟩
    | call c' again' k' =>
      rw [call_bind] at hk
      obtain rfl : c = c' := by injection hk
      exact .inl (h.of_reaches hq).2.1
  · exact .inr ⟨a, es₁, es₂, he, h₁⟩

theorem EventsSatisfy.of_own {es : List Event} (h : EventsSatisfy P b es) (ho : Own es) :
    ∀ e ∈ es, P b e.call := by
  induction es with
  | nil => simp
  | cons e es ih =>
    obtain ⟨he, ho⟩ := own_cons.1 ho
    obtain ⟨h₁, h₂⟩ := h
    rw [he, Bool.or_false] at h₂
    simpa [h₁] using ih h₂ ho

theorem EventsSatisfy.imp {R : Syscall → Prop} {es : List Event} (h : EventsSatisfy P b es)
    (hP : ∀ b c, P b c → R c) : ∀ e ∈ es, R e.call := by
  induction es generalizing b with
  | nil => simp
  | cons e es ih =>
    obtain ⟨h₁, h₂⟩ := h
    simpa [hP _ _ h₁] using ih h₂

theorem EventsSatisfy.append {es fs : List Event} :
    EventsSatisfy P b (es ++ fs) ↔
      EventsSatisfy P b es ∧ EventsSatisfy P (b || inChild es) fs := by
  induction es generalizing b with
  | nil => simp [EventsSatisfy]
  | cons e es ih => simp [EventsSatisfy, ih, and_assoc, Bool.or_assoc]

theorem EventsSatisfy.of_child {es : List Event} (h : EventsSatisfy P true es) :
    ∀ e ∈ es, P true e.call := by
  induction es with
  | nil => simp
  | cons e es ih =>
    obtain ⟨h₁, h₂⟩ := h
    simpa [h₁] using ih h₂

end Program

end PipeShell
