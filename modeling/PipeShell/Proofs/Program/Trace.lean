import PipeShell.Program

/-! What a program does when its calls are answered. An event is a call with the reply to it, and a
program that makes calls is led on by their events to what is left of it (`Program.Reaches`).
Nothing is said about which replies there are: whatever holds of all events holds whatever the
operating system does. A fork answers twice, so a list of events may be followed into a child. Main
statement: the events of a program followed by another are those of the one and then those of the
other (`reaches_bind_iff`, `returns_bind_iff`, `exits_bind_iff`). -/
namespace PipeShell

structure Event where
  call : Syscall
  reply : call.Reply

/-- The event by which a forked child goes its own way. -/
def Event.isBirth : Event → Bool
  | ⟨.fork, r⟩ => match (r : Except Errno ForkSide) with
    | .ok .child => true
    | _ => false
  | _ => false

def birth : Event := ⟨.fork, .ok .child⟩

theorem parent_inj {a b : Pid}
    (h : (⟨.fork, .ok (.parent a)⟩ : Event) = ⟨.fork, .ok (.parent b)⟩) : a = b := by
  injection h with _ h
  injection h with h
  injection h

/-- Events of one process, which is no child forked in their course. -/
def Own (es : List Event) : Prop := ∀ e ∈ es, e.isBirth = false

@[simp] theorem own_nil : Own [] := by simp [Own]

@[simp] theorem own_cons {e : Event} {es : List Event} :
    Own (e :: es) ↔ e.isBirth = false ∧ Own es := by
  simp [Own]

@[simp] theorem own_append {es fs : List Event} : Own (es ++ fs) ↔ Own es ∧ Own fs := by
  simp [Own, or_imp, forall_and]

namespace Program

variable {α β : Type}

/-- With its first calls answered as in `es`, `p` has come to `q`. -/
inductive Reaches : Program α → List Event → Program α → Prop
  | refl (p : Program α) : Reaches p [] p
  | next {c : Syscall} {again : c.Reply → Bool} {k : c.Reply → Program α} {r : c.Reply}
      {es : List Event} {q : Program α} (hr : again r = false) (h : Reaches (k r) es q) :
      Reaches (call c again k) (⟨c, r⟩ :: es) q
  | again {c : Syscall} {again : c.Reply → Bool} {k : c.Reply → Program α} {r : c.Reply}
      {es : List Event} {q : Program α} (hr : again r = true) (h : Reaches (call c again k) es q) :
      Reaches (call c again k) (⟨c, r⟩ :: es) q

def Returns (p : Program α) (es : List Event) (a : α) : Prop := p.Reaches es (done a)

/-- After the events `es` the next call ends the process with an exit code. -/
def Exits (p : Program α) (es : List Event) (code : Int32) : Prop :=
  ∃ again k, p.Reaches es (call (.exit code) again k)

variable {p q q' : Program α} {f : α → Program β} {es fs : List Event} {a : α} {b : β}

@[simp] theorem reaches_nil_iff : p.Reaches [] q ↔ q = p :=
  ⟨fun h => by cases h; rfl, fun h => h ▸ .refl p⟩

@[simp] theorem reaches_done_iff : (done a).Reaches es q ↔ es = [] ∧ q = done a :=
  ⟨fun h => by cases h; exact ⟨rfl, rfl⟩, fun ⟨h, h'⟩ => by subst h h'; exact .refl _⟩

theorem reaches_call_iff {c : Syscall} {again : c.Reply → Bool} {k : c.Reply → Program α} :
    (call c again k).Reaches es q ↔ (es = [] ∧ q = call c again k) ∨
      ∃ r fs, es = ⟨c, r⟩ :: fs ∧
        (if again r = true then (call c again k).Reaches fs q else (k r).Reaches fs q) := by
  constructor
  · intro h
    cases h with
    | refl => exact .inl ⟨rfl, rfl⟩
    | next hr h => exact .inr ⟨_, _, rfl, by simpa [hr] using h⟩
    | again hr h => exact .inr ⟨_, _, rfl, by simpa [hr] using h⟩
  · rintro (⟨rfl, rfl⟩ | ⟨r, fs, rfl, h⟩)
    · exact .refl _
    · by_cases hr : again r = true
      · exact .again hr (by simpa [hr] using h)
      · exact .next (by simpa using hr) (by simpa [hr] using h)

theorem Reaches.trans (h : p.Reaches es q) (h' : q.Reaches fs q') : p.Reaches (es ++ fs) q' := by
  induction h with
  | refl => exact h'
  | next hr _ ih => exact .next hr (ih h')
  | again hr _ ih => exact .again hr (ih h')

theorem Reaches.bind (h : p.Reaches es q) (f : α → Program β) :
    (p >>= f).Reaches es (q >>= f) := by
  induction h with
  | refl => exact .refl _
  | next hr _ ih => exact .next hr ih
  | again hr _ ih => exact .again hr ih

theorem Reaches.unique (h : p.Reaches es q) (h' : p.Reaches es q') : q = q' := by
  induction h with
  | refl => exact (reaches_nil_iff.1 h').symm
  | next hr _ ih =>
    cases h' with
    | next _ h' => exact ih h'
    | again hr' _ => simp [hr] at hr'
  | again hr _ ih =>
    cases h' with
    | next hr' _ => simp [hr] at hr'
    | again _ h' => exact ih h'

theorem Reaches.of_append (h : p.Reaches (es ++ fs) q') :
    ∃ q, p.Reaches es q ∧ q.Reaches fs q' := by
  induction es generalizing p with
  | nil => exact ⟨p, .refl p, h⟩
  | cons e es ih =>
    cases h with
    | next hr h => obtain ⟨q, h₁, h₂⟩ := ih h; exact ⟨q, .next hr h₁, h₂⟩
    | again hr h => obtain ⟨q, h₁, h₂⟩ := ih h; exact ⟨q, .again hr h₁, h₂⟩

theorem Reaches.append_iff (h : p.Reaches es q) : p.Reaches (es ++ fs) q' ↔ q.Reaches fs q' := by
  refine ⟨fun h' => ?_, h.trans⟩
  obtain ⟨q₁, h₁, h₂⟩ := h'.of_append
  rwa [h₁.unique h] at h₂

theorem Reaches.exits_append_iff (h : p.Reaches es q) {code : Int32} :
    p.Exits (es ++ fs) code ↔ q.Exits fs code := by
  simp only [Exits, h.append_iff]

theorem reaches_bind_iff {q : Program β} :
    (p >>= f).Reaches es q ↔ (∃ p', p.Reaches es p' ∧ q = p' >>= f) ∨
      ∃ a es₁ es₂, es = es₁ ++ es₂ ∧ p.Returns es₁ a ∧ (f a).Reaches es₂ q := by
  constructor
  · intro h
    induction es generalizing p with
    | nil => exact .inl ⟨p, .refl p, reaches_nil_iff.1 h⟩
    | cons e es ih =>
      cases p with
      | done a => exact .inr ⟨a, [], e :: es, rfl, .refl _, h⟩
      | call c again k =>
        rw [call_bind] at h
        cases h with
        | next hr h =>
          obtain ⟨p', hp, rfl⟩ | ⟨a, es₁, es₂, rfl, hp, hf⟩ := ih h
          · exact .inl ⟨p', .next hr hp, rfl⟩
          · exact .inr ⟨a, _ :: es₁, es₂, rfl, .next hr hp, hf⟩
        | again hr h =>
          obtain ⟨p', hp, rfl⟩ | ⟨a, es₁, es₂, rfl, hp, hf⟩ := ih (p := call c again k) h
          · exact .inl ⟨p', .again hr hp, rfl⟩
          · exact .inr ⟨a, _ :: es₁, es₂, rfl, .again hr hp, hf⟩
  · rintro (⟨p', hp, rfl⟩ | ⟨a, es₁, es₂, rfl, hp, hf⟩)
    · exact hp.bind f
    · exact (hp.bind f).trans hf

theorem reaches_bind_cases {q : Program β} (h : (p >>= f).Reaches es q) :
    (∃ c again k, p.Reaches es (call c again k) ∧ q = call c again fun r => k r >>= f) ∨
      ∃ a es₁ es₂, es = es₁ ++ es₂ ∧ p.Returns es₁ a ∧ (f a).Reaches es₂ q := by
  obtain ⟨p', hp, rfl⟩ | h := reaches_bind_iff.1 h
  · cases p' with
    | done a => exact .inr ⟨a, es, [], (List.append_nil es).symm, hp, .refl _⟩
    | call c again k => exact .inl ⟨c, again, k, hp, rfl⟩
  · exact .inr h

@[simp] theorem returns_done_iff {b : α} : (done a).Returns es b ↔ es = [] ∧ b = a := by
  simp [Returns]

theorem returns_bind_iff :
    (p >>= f).Returns es b ↔
      ∃ a es₁ es₂, es = es₁ ++ es₂ ∧ p.Returns es₁ a ∧ (f a).Returns es₂ b := by
  refine reaches_bind_iff.trans ⟨?_, .inr⟩
  rintro (⟨p', hp, hq⟩ | h)
  · cases p' with
    | done a => exact ⟨a, es, [], (List.append_nil es).symm, hp, by simpa [Returns] using hq⟩
    | call => cases hq
  · exact h

theorem exits_bind_iff {code : Int32} :
    (p >>= f).Exits es code ↔ p.Exits es code ∨
      ∃ a es₁ es₂, es = es₁ ++ es₂ ∧ p.Returns es₁ a ∧ (f a).Exits es₂ code := by
  constructor
  · rintro ⟨again, k, h⟩
    obtain ⟨p', hp, hq⟩ | ⟨a, es₁, es₂, he, hp, hf⟩ := reaches_bind_iff.1 h
    · cases p' with
      | done a =>
        exact .inr ⟨a, es, [], (List.append_nil es).symm, hp, again, k, reaches_nil_iff.2 hq⟩
      | call => cases hq; exact .inl ⟨_, _, hp⟩
    · exact .inr ⟨a, es₁, es₂, he, hp, again, k, hf⟩
  · rintro (⟨again, k, h⟩ | ⟨a, es₁, es₂, rfl, hp, again, k, hf⟩)
    · exact ⟨_, _, h.bind f⟩
    · exact ⟨again, k, (hp.bind f).trans hf⟩

section Ask

variable {c : Syscall}

theorem reaches_ask_iff {q : Program c.Reply} :
    (ask c).Reaches es q ↔ (es = [] ∧ q = ask c) ∨ ∃ r, es = [⟨c, r⟩] ∧ q = done r := by
  rw [ask, reaches_call_iff]
  simp only [Bool.false_eq_true, if_false, reaches_done_iff]
  constructor
  · rintro (h | ⟨r, fs, rfl, rfl, rfl⟩)
    · exact .inl h
    · exact .inr ⟨r, rfl, rfl⟩
  · rintro (h | ⟨r, rfl, rfl⟩)
    · exact .inl h
    · exact .inr ⟨r, [], rfl, rfl, rfl⟩

@[simp] theorem returns_ask_iff {r : c.Reply} : (ask c).Returns es r ↔ es = [⟨c, r⟩] := by
  rw [Returns, reaches_ask_iff]
  constructor
  · rintro (⟨-, h⟩ | ⟨r', rfl, h⟩)
    · cases h
    · cases h; rfl
  · rintro rfl; exact .inr ⟨r, rfl, rfl⟩

theorem exits_ask_iff {code : Int32} : (ask c).Exits es code ↔ es = [] ∧ c = .exit code := by
  constructor
  · rintro ⟨again, k, h⟩
    obtain ⟨rfl, h⟩ | ⟨r, -, h⟩ := reaches_ask_iff.1 h
    · cases h; exact ⟨rfl, rfl⟩
    · cases h
  · rintro ⟨rfl, rfl⟩; exact ⟨_, _, .refl _⟩

end Ask

@[simp] theorem exits_done_iff {code : Int32} : ¬(done a).Exits es code := by
  rintro ⟨again, k, h⟩
  cases (reaches_done_iff.1 h).2

@[simp] theorem exits_exit_iff {code code' : Int32} :
    (exit code).Exits es code' ↔ es = [] ∧ code = code' :=
  (exits_ask_iff (c := .exit code)).trans (by rw [Syscall.exit.injEq])

@[simp] theorem not_returns_never {p : Program Empty} : ¬(never p : Program α).Returns es a := by
  rw [never, returns_bind_iff]
  rintro ⟨a, -⟩
  exact a.elim

theorem never_ne_done {p : Program Empty} : (never p : Program α) ≠ done a := by
  intro h
  have hr : (never p).Returns [] a := h ▸ Reaches.refl _
  exact not_returns_never hr

@[simp] theorem never_bind (p : Program Empty) (f : α → Program β) :
    (never p >>= f : Program β) = never p := by
  rw [never, never, bind_assoc]
  exact congrArg _ (funext nofun)

theorem reaches_never_iff {p : Program Empty} {q : Program α} :
    (never p).Reaches es q ↔ ∃ p', p.Reaches es p' ∧ q = never p' := by
  refine reaches_bind_iff.trans ⟨?_, .inl⟩
  rintro (h | ⟨a, -⟩)
  · exact h
  · exact a.elim

@[simp] theorem exits_never_iff {p : Program Empty} {code : Int32} :
    (never p : Program α).Exits es code ↔ p.Exits es code := by
  refine exits_bind_iff.trans ⟨?_, .inl⟩
  rintro (h | ⟨a, -⟩)
  · exact h
  · exact a.elim

@[simp] theorem interrupted_eq_true_iff {r : Except Errno α} :
    interrupted r = true ↔ r = .error Errno.interrupted := by
  cases r <;> simp [interrupted]

section Persistent

variable {c : Syscall} {again : c.Reply → Bool} {e r : c.Reply}

theorem returns_persistent_iff (he : ∀ x, again x = true ↔ x = e) :
    (call c again done).Returns es r ↔
      r ≠ e ∧ ∃ n, es = List.replicate n ⟨c, e⟩ ++ [⟨c, r⟩] := by
  constructor
  · intro h
    induction es with
    | nil => cases h
    | cons x es ih =>
      cases h with
      | next hx h =>
        obtain ⟨rfl, rfl⟩ := returns_done_iff.1 h
        exact ⟨fun hr => by simp [(he _).2 hr] at hx, 0, rfl⟩
      | again hx h =>
        obtain ⟨hr, n, rfl⟩ := ih h
        obtain rfl := (he _).1 hx
        exact ⟨hr, n + 1, rfl⟩
  · rintro ⟨hr, n, rfl⟩
    induction n with
    | zero => exact .next (by simpa using mt (he r).1 hr) (.refl _)
    | succ n ih => exact .again ((he e).2 rfl) ih

end Persistent

section Wrappers

variable {fd fd' : Fd} {s : Bytes}

@[simp] theorem returns_fork_iff {r : Except Errno ForkSide} :
    fork.Returns es r ↔ es = [⟨.fork, r⟩] := returns_ask_iff (c := .fork)

@[simp] theorem returns_kill_iff {child : Pid} {n : Signal} {r : Except Errno Unit} :
    (kill child n).Returns es r ↔ es = [⟨.kill child n, r⟩] :=
  returns_ask_iff (c := .kill child n)

@[simp] theorem returns_pipe_iff {r : Except Errno (Fd × Fd)} :
    pipe.Returns es r ↔ es = [⟨.pipe, r⟩] := returns_ask_iff (c := .pipe)

@[simp] theorem returns_dup2_iff {r : Except Errno Unit} :
    (dup2 fd fd').Returns es r ↔ es = [⟨.dup2 fd fd', r⟩] :=
  returns_ask_iff (c := .dup2 fd fd')

@[simp] theorem returns_close_iff {r : Except Errno Unit} :
    (close fd).Returns es r ↔ es = [⟨.close fd, r⟩] := returns_ask_iff (c := .close fd)

@[simp] theorem returns_read_iff {n : Nat} {r : Except Errno Bytes} :
    (read fd n).Returns es r ↔ es = [⟨.read fd n, r⟩] := returns_ask_iff (c := .read fd n)

theorem returns_wait_iff {pid : Pid} {r : Except Errno Termination} : (wait pid).Returns es r ↔
    r ≠ .error Errno.interrupted ∧
      ∃ n, es = List.replicate n ⟨.wait pid, .error Errno.interrupted⟩ ++ [⟨.wait pid, r⟩] :=
  returns_persistent_iff (c := .wait pid) fun _ => interrupted_eq_true_iff

theorem returns_openFile_iff {mode : OpenMode} {r : Except Errno Fd} :
    (openFile s mode).Returns es r ↔ r ≠ .error Errno.interrupted ∧
      ∃ n, es = List.replicate n ⟨.openFile s mode, .error Errno.interrupted⟩ ++
        [⟨.openFile s mode, r⟩] :=
  returns_persistent_iff (c := .openFile s mode) fun _ => interrupted_eq_true_iff

end Wrappers

theorem chdir_of_mem {path : Bytes} (h : Byte.nul ∈ path) :
    chdir path = done (.error Errno.invalid) := if_pos h

theorem chdir_of_notMem {path : Bytes} (h : Byte.nul ∉ path) :
    chdir path = (ask (.chdir path) : Program (Except Errno Unit)) := if_neg h

theorem executable_of_mem {path : Bytes} (h : Byte.nul ∈ path) :
    executable path = done false := if_pos h

theorem executable_of_notMem {path : Bytes} (h : Byte.nul ∉ path) :
    executable path = ((ask (.access path) : Program (Except Errno Unit)) >>= fun r =>
      match r with
      | .ok () => done true
      | .error _ => done false) := if_neg h

end Program

end PipeShell
