import PipeShell.Proofs.Parser.Transcript
import PipeShell.Proofs.Program.Acts
import PipeShell.Proofs.Shell.Conduct
import PipeShell.Shell.Repl

/-! The shell as an interpreter of scripts. A script is carried out line by line: what that means is
said by `Interprets`, without pieces, buffers or reads. The shell itself reads pieces, parses what
it has, and evaluates what is complete before it reads on. Main statement: what it does with the
lines and how it ends is what the interpreter does with the whole script, however the script is cut
into pieces, however often a read is interrupted, and whether the input ends or fails
(`runs_iff_interprets`). -/
namespace PipeShell

open Program

def ParseError.complaint (e : ParseError) : Bytes := Bytes.ofAscii ("msh: " ++ e.message ++ "\n")

/-- Results of the parser are carried out in order, from a state, by calls that are answered in the
given way. The number is the exit status of the process, if it has ended by then. -/
inductive Interprets : State → List (Except ParseError CommandLine) → List Event → Option UInt8 →
    Prop
  /-- nothing has been done yet -/
  | pause (s : State) (xs : List (Except ParseError CommandLine)) : Interprets s xs [] none
  /-- nothing is left to do -/
  | finish (s : State) : Interprets s [] [] (some s.lastStatus)
  | line {s : State} {l : CommandLine} {xs : List (Except ParseError CommandLine)}
      {es fs : List Event} {status : UInt8} {out : Option UInt8}
      (h : (evalLine s l).Returns es status)
      (hs : Interprets { s with lastStatus := status } xs fs out) :
      Interprets s (.ok l :: xs) (es ++ fs) out
  /-- a line is being evaluated -/
  | during {s : State} {l : CommandLine} {xs : List (Except ParseError CommandLine)}
      {es : List Event} {q : Program UInt8} (h : (evalLine s l).Reaches es q) (ho : Own es) :
      Interprets s (.ok l :: xs) es none
  | exit {s : State} {l : CommandLine} {xs : List (Except ParseError CommandLine)} {c : Command}
      (h : l.EndsShell c) : Interprets s (.ok l :: xs) []
        (some (ExitCode.status (ExitCode.ofArguments c.arguments)))
  | error {s : State} {e : ParseError} {xs : List (Except ParseError CommandLine)}
      {ws fs : List Event} {out : Option UInt8} (hw : Writes Fd.stderr e.complaint ws)
      (h : Interprets s xs fs out) : Interprets s (.error e :: xs) (ws ++ fs) out
  /-- an error is being reported -/
  | reporting {s : State} {e : ParseError} {xs : List (Except ParseError CommandLine)}
      {es fs : List Event} (hw : Writes Fd.stderr e.complaint (es ++ fs)) :
      Interprets s (.error e :: xs) es none

/-- What the reads of the shell give that is fed with the script `s`: pieces, between them any
number of interruptions, and then the end of the input or an error. -/
inductive Delivers : Bytes → List (Except Errno Bytes) → Prop
  | ended : Delivers [] [.ok []]
  | failed {e : Errno} (h : e ≠ Errno.interrupted) : Delivers [] [.error e]
  | interrupted {s : Bytes} {rs : List (Except Errno Bytes)} (h : Delivers s rs) :
      Delivers s (.error Errno.interrupted :: rs)
  | piece {u s : Bytes} {rs : List (Except Errno Bytes)} (hu : u ≠ [])
      (hl : u.length ≤ Repl.block) (h : Delivers s rs) : Delivers (u ++ s) (.ok u :: rs)

/-- Calls by which the shell learns of its input and its surroundings, and its prompts. -/
def Syscall.isIntake : Syscall → Bool
  | .read _ _ | .isTerminal _ | .environmentPath => true
  | .write fd _ => fd = Fd.stdout
  | _ => false

def Event.reading? : Event → Option (Except Errno Bytes)
  | ⟨.read _ _, r⟩ => some r
  | _ => none

def readings (es : List Event) : List (Except Errno Bytes) := es.filterMap Event.reading?

def deeds (es : List Event) : List Event := es.filter fun e => !e.call.isIntake

@[simp] theorem readings_append (es fs : List Event) :
    readings (es ++ fs) = readings es ++ readings fs := List.filterMap_append

@[simp] theorem deeds_append (es fs : List Event) : deeds (es ++ fs) = deeds es ++ deeds fs :=
  List.filter_append ..

theorem deeds_eq_self {es : List Event} (h : ∀ e ∈ es, e.call.isIntake = false) :
    deeds es = es := List.filter_eq_self.2 fun e he => by simp [h e he]

theorem readings_eq_nil {es : List Event} (h : ∀ e ∈ es, e.call.isIntake = false) :
    readings es = [] := by
  refine List.filterMap_eq_nil_iff.2 fun e he => ?_
  have := h e he
  obtain ⟨c, r⟩ := e
  cases c <;> simp_all [Event.reading?, Syscall.isIntake]

/-- What is left of a program shows how its process ends, if it ends now. -/
def Shows {α : Type} (p : Program α) (out : Option UInt8) : Prop :=
  ∀ n, out = some n → ∃ code again k, p = .call (.exit code) again k ∧ n = ExitCode.status code

@[simp] theorem shows_none {α : Type} (p : Program α) : Shows p none := nofun

@[simp] theorem shows_done_iff {α : Type} {a : α} {out : Option UInt8} :
    Shows (.done a) out ↔ out = none := by
  constructor
  · intro h
    cases out with
    | none => rfl
    | some n => obtain ⟨_, _, _, hp, _⟩ := h n rfl; cases hp
  · rintro rfl; exact shows_none _

theorem Shows.bind {α β : Type} {p : Program α} {out : Option UInt8} (h : Shows p out)
    (f : α → Program β) : Shows (p >>= f) out := by
  intro n hn
  obtain ⟨code, again, k, rfl, hc⟩ := h n hn
  exact ⟨code, again, _, rfl, hc⟩

theorem Shows.of_bind {α β : Type} {p : Program α} {f : α → Program β} {out : Option UInt8}
    (h : Shows (p >>= f) out) : Shows p out ∨ ∃ a, p = .done a := by
  cases p with
  | done a => exact .inr ⟨a, rfl⟩
  | call c again k =>
    refine .inl fun n hn => ?_
    obtain ⟨code, again', k', hp, hc⟩ := h n hn
    cases hp
    exact ⟨code, again', k, rfl, hc⟩

theorem shows_exit_iff {α : Type} {n : UInt8} {out : Option UInt8} :
    Shows (never (exit n.toUInt32.toInt32) : Program α) out ↔ out = none ∨ out = some n := by
  have hn : ExitCode.status n.toUInt32.toInt32 = n := by simp [ExitCode.status]
  constructor
  · intro h
    cases out with
    | none => exact .inl rfl
    | some m =>
      obtain ⟨code, again, k, hk, rfl⟩ := h m rfl
      cases hk
      exact .inr (congrArg some hn)
  · rintro (rfl | rfl)
    · exact shows_none _
    · intro m hm
      obtain rfl := Option.some.inj hm
      exact ⟨_, _, _, rfl, hn.symm⟩

theorem Shows.eq_none_of_calls {α : Type} {P : Bool → Syscall → Prop} {Q : Bool → α → Prop}
    {b : Bool} {p : Program α} {out : Option UInt8} (h : Shows p out) (hp : p.Calls P Q b)
    (hP : ∀ b code, ¬P b (.exit code)) : out = none := by
  cases out with
  | none => rfl
  | some n =>
    obtain ⟨code, again, k, rfl, -⟩ := h n rfl
    exact absurd hp.1 (hP b code)

theorem interprets_nil_iff {s : State} {es : List Event} {out : Option UInt8} :
    Interprets s [] es out ↔ es = [] ∧ (out = none ∨ out = some s.lastStatus) := by
  constructor
  · intro h
    cases h with
    | pause => exact ⟨rfl, .inl rfl⟩
    | finish => exact ⟨rfl, .inr rfl⟩
  · rintro ⟨rfl, rfl | rfl⟩
    · exact .pause s []
    · exact .finish s

namespace Repl

variable {s s' : State} {xs ys : List (Except ParseError CommandLine)} {es fs : List Event}
  {out : Option UInt8}

theorem take_ok (s : State) (l : CommandLine) :
    take s (.ok l) = evalLine s l >>= fun status => done { s with lastStatus := status } := by
  simp only [take, eval, pure_eq, bind_assoc, done_bind]

theorem take_error (s : State) (e : ParseError) :
    take s (.error e) = writeAll Fd.stderr e.complaint >>= fun _ => done s := rfl

theorem reaches_foldlM_take {l : CommandLine} {q : Program UInt8}
    (h : (evalLine s l).Reaches es q) (xs : List (Except ParseError CommandLine)) :
    ((Except.ok l :: xs).foldlM take s).Reaches es
      (q >>= fun status => xs.foldlM take { s with lastStatus := status }) := by
  rw [List.foldlM_cons, take_ok, bind_assoc]
  exact h.bind _

theorem calls_take {P : Bool → Syscall → Prop} (hP : ∀ b c, c.isIntake = false → P b c)
    {x : Except ParseError CommandLine} :
    (take s x).Calls (fun b c => b = true ∨ P b c) InShell false := by
  cases x with
  | ok l =>
    have hl : ∀ b c, l.Makes b c → b = true ∨ P b c := by
      rintro (_ | _) c h
      · refine .inr (hP _ _ ?_)
        cases h with
        | conduct h | plumbing _ h => cases c <;> first | rfl | cases h <;> rfl
        | moves | ends => rfl
      · exact .inl rfl
    rw [take_ok, calls_bind]
    exact (calls_evalLine hl).mono fun _ _ hb => hb
  | error e =>
    rw [take_error, calls_bind]
    exact calls_writeAll (fun _ => .inr (hP _ _ rfl)) (fun _ => rfl) _

theorem calls_foldlM_take {P : Bool → Syscall → Prop} (hP : ∀ b c, c.isIntake = false → P b c)
    (xs : List (Except ParseError CommandLine)) (s : State) :
    (xs.foldlM take s).Calls (fun b c => b = true ∨ P b c) InShell false := by
  induction xs generalizing s with
  | nil => rfl
  | cons x xs ih =>
    rw [List.foldlM_cons, calls_bind]
    refine (calls_take hP).mono fun b s' hb => ?_
    obtain rfl : b = false := hb
    exact ih s'

theorem not_intake_of_reaches {p : Program State} (h : (xs.foldlM take s).Reaches es p)
    (ho : Own es) : ∀ e ∈ es, e.call.isIntake = false := by
  have hc := calls_foldlM_take (P := fun _ c => c.isIntake = false) (fun _ _ h => h) xs s
  intro e he
  simpa using (hc.of_reaches h).1.of_own ho e he

theorem own_of_returns (h : (xs.foldlM take s).Returns es s') : Own es := by
  have hc := calls_foldlM_take (P := fun _ _ => True) (fun _ _ _ => trivial) xs s
  exact inChild_eq_false_iff.1 (hc.of_reaches h).2

theorem interprets_cons {x : Except ParseError CommandLine} (h : (take s x).Returns es s')
    (hi : Interprets s' ys fs out) : Interprets s (x :: ys) (es ++ fs) out := by
  cases x with
  | ok l =>
    rw [take_ok, returns_bind_iff] at h
    obtain ⟨status, es₁, es₂, rfl, h₁, h₂⟩ := h
    obtain ⟨rfl, rfl⟩ := returns_done_iff.1 h₂
    simpa using Interprets.line h₁ hi
  | error e =>
    rw [take_error, returns_bind_iff] at h
    obtain ⟨r, es₁, es₂, rfl, h₁, h₂⟩ := h
    obtain ⟨rfl, rfl⟩ := returns_done_iff.1 h₂
    rw [List.append_nil]
    exact .error (returns_writeAll_iff.1 ⟨r, h₁⟩) hi

theorem interprets_append (h : (xs.foldlM take s).Returns es s')
    (hi : Interprets s' ys fs out) : Interprets s (xs ++ ys) (es ++ fs) out := by
  induction xs generalizing s es with
  | nil =>
    obtain ⟨rfl, rfl⟩ := returns_done_iff.1 h
    exact hi
  | cons x xs ih =>
    rw [List.foldlM_cons, returns_bind_iff] at h
    obtain ⟨t, es₁, es₂, rfl, h₁, h₂⟩ := h
    rw [List.append_assoc]
    exact interprets_cons h₁ (ih h₂)

theorem interprets_of_take {p : Program State} {x : Except ParseError CommandLine}
    (h : (take s x).Reaches es p) (ho : Own es) (hp : ∀ t, p ≠ done t) (hs : Shows p out) :
    Interprets s (x :: xs) es out := by
  cases x with
  | ok l =>
    rw [take_ok] at h
    obtain ⟨q, hq, rfl⟩ | ⟨a, es₁, es₂, rfl, -, h₂⟩ := reaches_bind_iff.1 h
    · cases out with
      | none => exact .during hq ho
      | some n =>
        obtain ⟨code, again, k, hk, rfl⟩ := hs n rfl
        cases q with
        | done a => cases hk
        | call c again' k' =>
          cases hk
          obtain ⟨rfl, c, hc, rfl⟩ := (exits_evalLine_iff ho).1 ⟨_, _, hq⟩
          exact .exit hc
    · exact absurd (reaches_done_iff.1 h₂).2 (hp _)
  | error e =>
    rw [take_error] at h
    obtain ⟨q, hq, rfl⟩ | ⟨a, es₁, es₂, rfl, -, h₂⟩ := reaches_bind_iff.1 h
    · have hw : (writeAll Fd.stderr e.complaint).Calls (fun _ c => ∀ code, c ≠ .exit code)
          (fun _ _ => True) false := calls_writeAll (fun _ => by simp) (fun _ => trivial) _
      obtain hs' | ⟨r, rfl⟩ := hs.of_bind
      · obtain rfl := hs'.eq_none_of_calls (hw.of_reaches hq).2 fun _ code h => h code rfl
        obtain ⟨fs, hfs, -⟩ := exists_writes_of_reaches hq
        exact .reporting hfs
      · exact absurd rfl (hp s)
    · exact absurd (reaches_done_iff.1 h₂).2 (hp _)

theorem interprets_of_reaches {p : Program State} (h : (xs.foldlM take s).Reaches es p)
    (ho : Own es) (hs : Shows p out) : Interprets s (xs ++ ys) es out := by
  by_cases hp : ∃ t, p = done t
  · obtain ⟨t, rfl⟩ := hp
    obtain rfl := shows_done_iff.1 hs
    simpa using interprets_append h (.pause t ys)
  · induction xs generalizing s es with
    | nil => exact absurd ⟨s, (reaches_done_iff.1 h).2⟩ hp
    | cons x xs ih =>
      rw [List.foldlM_cons] at h
      obtain ⟨p', h', rfl⟩ | ⟨t, es₁, es₂, rfl, h₁, h₂⟩ := reaches_bind_iff.1 h
      · by_cases hp' : ∃ t, p' = done t
        · obtain ⟨t, rfl⟩ := hp'
          have := ih (reaches_nil_iff.2 rfl : Reaches _ [] _) own_nil
          simpa using interprets_cons h' this
        · obtain hs' | ht := hs.of_bind
          · exact interprets_of_take h' ho (by simpa using hp') hs'
          · exact absurd ht hp'
      · have := ih h₂ (own_append.1 ho).2
        exact interprets_cons h₁ this

theorem reaches_of_interprets (h : Interprets s (xs ++ ys) es out) :
    (∃ p, (xs.foldlM take s).Reaches es p ∧ Own es ∧ Shows p out) ∨
      ∃ t es₁ es₂, es = es₁ ++ es₂ ∧ (xs.foldlM take s).Returns es₁ t ∧
        Interprets t ys es₂ out := by
  induction xs generalizing s es with
  | nil => exact .inr ⟨s, [], es, rfl, .refl _, h⟩
  | cons x xs ih =>
    -- the first result has been carried out, and the others follow
    have hstep : ∀ {t es₁ es₂}, (take s x).Returns es₁ t → Own es₁ →
        Interprets t (xs ++ ys) es₂ out →
        (∃ p, ((x :: xs).foldlM take s).Reaches (es₁ ++ es₂) p ∧ Own (es₁ ++ es₂) ∧ Shows p out) ∨
          ∃ t' fs gs, es₁ ++ es₂ = fs ++ gs ∧ ((x :: xs).foldlM take s).Returns fs t' ∧
            Interprets t' ys gs out := by
      intro t es₁ es₂ h₁ ho hi
      rw [List.foldlM_cons]
      obtain ⟨p, hp, hop, hs⟩ | ⟨t', fs, gs, rfl, hf, hg⟩ := ih hi
      · exact .inl ⟨p, reaches_bind_iff.2 (.inr ⟨t, es₁, es₂, rfl, h₁, hp⟩),
          own_append.2 ⟨ho, hop⟩, hs⟩
      · exact .inr ⟨t', es₁ ++ fs, gs, (List.append_assoc ..).symm,
          returns_bind_iff.2 ⟨t, es₁, fs, rfl, h₁, hf⟩, hg⟩
    generalize hxs : x :: xs ++ ys = zs at h
    cases h with
    | pause => exact .inl ⟨_, .refl _, own_nil, shows_none _⟩
    | finish => simp at hxs
    | line h hs =>
      obtain ⟨rfl, rfl⟩ := List.cons.inj hxs
      refine hstep ?_ (own_of_returns_evalLine h) hs
      rw [take_ok]
      exact returns_bind_iff.2 ⟨_, _, [], (List.append_nil _).symm, h, .refl _⟩
    | during h ho =>
      obtain ⟨rfl, rfl⟩ := List.cons.inj hxs
      exact .inl ⟨_, reaches_foldlM_take h xs, ho, shows_none _⟩
    | exit h =>
      obtain ⟨rfl, rfl⟩ := List.cons.inj hxs
      obtain ⟨again, k, hk⟩ := (exits_evalLine_iff (s := s) own_nil).2 ⟨rfl, _, h, rfl⟩
      exact .inl ⟨_, reaches_foldlM_take hk xs, own_nil,
        fun n hn => ⟨_, again, _, rfl, (Option.some.inj hn).symm⟩⟩
    | error hw h =>
      obtain ⟨rfl, rfl⟩ := List.cons.inj hxs
      obtain ⟨r, hr⟩ := returns_writeAll_iff.2 hw
      refine hstep ?_ hw.own h
      exact returns_bind_iff.2 ⟨r, _, [], (List.append_nil _).symm, hr, .refl _⟩
    | @reporting _ e _ es fs hw =>
      obtain ⟨rfl, rfl⟩ := List.cons.inj hxs
      obtain ⟨r, hr⟩ := returns_writeAll_iff.2 hw
      obtain ⟨q, hq, -⟩ := hr.of_append
      have hfirst : ((Except.error e :: xs).foldlM take s).Reaches es
          (q >>= fun _ => done s >>= fun s => xs.foldlM take s) := by
        rw [List.foldlM_cons, take_error, bind_assoc]
        exact hq.bind _
      exact .inl ⟨_, hfirst, (own_append.1 hw.own).1, shows_none _⟩

variable {r : Repl} {x : Except Errno Bytes}

def prompting (r : Repl) : Program Unit :=
  if r.interactive then writeAll Fd.stdout prompt >>= fun _ => done () else done ()

def after (r : Repl) : Except Errno Bytes → Program Repl
  | .ok [] => never r.leave
  | .ok s => runReady { r with parser := r.parser.feed (s.take chunk), ahead := s.drop chunk }
  | .error e => if e = Errno.interrupted then done r else never r.leave

def intake (r : Repl) : Program (Except Errno Bytes) := r.prompting >>= fun _ => r.input

theorem turn_eq (r : Repl) : r.turn = r.intake >>= r.after := by
  have hinput : (r.input >>= fun x => match x with
      | .ok [] => never r.leave
      | .ok s => runReady { r with parser := r.parser.feed (s.take chunk), ahead := s.drop chunk }
      | .error e => if e = Errno.interrupted then done r else never r.leave) =
      r.input >>= r.after := by
    refine congrArg _ (funext fun x => ?_)
    unfold after
    split <;> rfl
  unfold turn intake prompting
  split
  · simp only [bind_assoc, done_bind]
    exact congrArg _ (funext fun _ => hinput)
  · exact hinput

theorem after_ok {r : Repl} {s : Bytes} (hs : s ≠ []) : r.after (.ok s) =
    runReady { r with parser := r.parser.feed (s.take chunk), ahead := s.drop chunk } := by
  unfold after
  split <;> simp_all

theorem runReady_eq (r : Repl) :
    r.runReady = r.parser.popAll.1.foldlM take r.state >>= fun s =>
      done { r with state := s, parser := r.parser.popAll.2 } := rfl

theorem never_leave_eq (r : Repl) :
    (never r.leave : Program Repl) = r.parser.finish.popAll.1.foldlM take r.state >>= fun s =>
      never (exit s.lastStatus.toUInt32.toInt32) := by
  simp only [leave, runReady_eq, never, bind_assoc, done_bind]

theorem calls_intake (r : Repl) :
    r.intake.Calls (fun _ c => c.isIntake = true) (fun _ _ => True) false := by
  have hinput : r.input.Calls (fun _ c => c.isIntake = true) (fun _ _ => True) false := by
    unfold input
    split
    · rw [calls_read]
      exact ⟨rfl, fun _ => trivial⟩
    · trivial
  unfold intake prompting
  split
  · rw [calls_bind, calls_bind]
    exact calls_writeAll (fun _ => rfl) (fun _ => hinput) _
  · exact hinput

theorem silent_of_intake {q : Program (Except Errno Bytes)} (h : r.intake.Reaches es q) :
    Own es ∧ deeds es = [] ∧ ∀ out, Shows q out → out = none := by
  obtain ⟨hes, hq⟩ := r.calls_intake.of_reaches h
  have hintake : ∀ e ∈ es, e.call.isIntake = true := hes.imp fun _ _ h => h
  refine ⟨own_of_not_fork fun e he hf => ?_, List.filter_eq_nil_iff.2 fun e he => ?_,
    fun out hs => hs.eq_none_of_calls hq nofun⟩
  · have := hintake e he
    rw [hf] at this
    cases this
  · simp [hintake e he]

theorem readings_of_intake (h : r.intake.Returns es x) :
    (r.ahead = [] ∧ readings es = [x]) ∨ (r.ahead ≠ [] ∧ readings es = [] ∧ x = .ok r.ahead) := by
  have hprompt : ∀ {fs}, r.prompting.Returns fs () → readings fs = [] := by
    intro fs h
    have hc : r.prompting.Calls (fun _ c => ∃ s, c = .write Fd.stdout s) (fun _ _ => True)
        false := by
      unfold prompting
      split
      · rw [calls_bind]
        exact calls_writeAll (fun s => ⟨s, rfl⟩) (fun _ => trivial) _
      · trivial
    refine List.filterMap_eq_nil_iff.2 fun e he => ?_
    obtain ⟨s, hs⟩ := (hc.of_reaches h).1.imp (fun _ _ h => h) e he
    obtain ⟨c, y⟩ := e
    cases hs
    rfl
  obtain ⟨_, es₁, es₂, rfl, h₁, h₂⟩ := returns_bind_iff.1 h
  rw [readings_append, hprompt h₁, List.nil_append]
  unfold input at h₂
  split at h₂
  · obtain rfl := returns_read_iff.1 h₂
    exact .inl ⟨‹_›, rfl⟩
  · obtain ⟨rfl, rfl⟩ := returns_done_iff.1 h₂
    exact .inr ⟨‹_›, rfl, rfl⟩

theorem exists_returns_intake (hx : r.ahead = [] ∨ x = .ok r.ahead) :
    ∃ es, r.intake.Returns es x := by
  have hinput : ∃ es, r.input.Returns es x := by
    unfold input
    split
    · exact ⟨_, returns_read_iff.2 rfl⟩
    · exact ⟨[], returns_done_iff.2 ⟨rfl, hx.resolve_left ‹_›⟩⟩
  have hprompt : ∃ es, r.prompting.Returns es () := by
    unfold prompting
    split
    · obtain ⟨y, hy⟩ := returns_writeAll_iff.2 (.stuck (by decide) : Writes Fd.stdout prompt _)
      exact ⟨_, returns_bind_iff.2 ⟨y, _, [], (List.append_nil _).symm, hy, .refl _⟩⟩
    · exact ⟨[], .refl _⟩
  obtain ⟨es, hes⟩ := hprompt
  obtain ⟨fs, hfs⟩ := hinput
  exact ⟨es ++ fs, returns_bind_iff.2 ⟨(), es, fs, rfl, hes, hfs⟩⟩

/-- What is left to be done by a shell that has read and carried out lines in the course of some
events. -/
inductive Serves : Repl → List Event → Program Repl → Prop
  | during {r : Repl} {es : List Event} {p : Program Repl} (h : r.turn.Reaches es p) :
      Serves r es p
  | turn {r r' : Repl} {es fs : List Event} {p : Program Repl} (h : r.turn.Returns es r')
      (hs : Serves r' fs p) : Serves r (es ++ fs) p

/-- The same, from an input on. -/
def Continues (r : Repl) (x : Except Errno Bytes) (es : List Event) (p : Program Repl) : Prop :=
  (r.after x).Reaches es p ∨
    ∃ r' fs gs, es = fs ++ gs ∧ (r.after x).Returns fs r' ∧ Serves r' gs p

variable {p : Program Repl}

theorem Serves.first_input (h : Serves r es p) :
    (deeds es = [] ∧ ∀ out, Shows p out → out = none) ∨
      ∃ es₁ x es₂, es = es₁ ++ es₂ ∧ r.intake.Returns es₁ x ∧ Continues r x es₂ p := by
  cases h with
  | during h =>
    rw [turn_eq] at h
    obtain ⟨q, hq, rfl⟩ | ⟨x, es₁, es₂, rfl, h₁, h₂⟩ := reaches_bind_iff.1 h
    · obtain ⟨-, hd, hnone⟩ := silent_of_intake hq
      by_cases hq' : ∃ x, q = done x
      · obtain ⟨x, rfl⟩ := hq'
        exact .inr ⟨es, x, [], (List.append_nil es).symm, hq, .inl (.refl _)⟩
      · exact .inl ⟨hd, fun out hs => hnone out (hs.of_bind.resolve_right hq')⟩
    · exact .inr ⟨es₁, x, es₂, rfl, h₁, .inl h₂⟩
  | @turn _ r' fs gs _ h hs =>
    rw [turn_eq, returns_bind_iff] at h
    obtain ⟨x, es₁, es₂, rfl, h₁, h₂⟩ := h
    exact .inr ⟨es₁, x, es₂ ++ gs, List.append_assoc .., h₁, .inr ⟨r', es₂, gs, rfl, h₂, hs⟩⟩

theorem Continues.serves (h : Continues r x es p) (hx : r.ahead = [] ∨ x = .ok r.ahead)
    (ho : Own es) : ∃ fs gs, r.intake.Returns fs x ∧ gs = fs ++ es ∧ Serves r gs p ∧ Own gs ∧
      deeds gs = deeds es := by
  obtain ⟨fs, hfs⟩ := exists_returns_intake hx
  obtain ⟨hof, hd, -⟩ := silent_of_intake hfs
  have hturn : ∀ {gs q}, (r.after x).Reaches gs q → r.turn.Reaches (fs ++ gs) q := by
    intro gs q h
    rw [turn_eq]
    exact reaches_bind_iff.2 (.inr ⟨x, fs, gs, rfl, hfs, h⟩)
  refine ⟨fs, _, hfs, rfl, ?_, own_append.2 ⟨hof, ho⟩, by rw [deeds_append, hd, List.nil_append]⟩
  obtain h | ⟨r', gs, hs, rfl, h, hs'⟩ := h
  · exact .during (hturn h)
  · rw [← List.append_assoc]
    exact .turn (hturn h) hs'

theorem not_intake_of_reaches_leave (h : (never r.leave : Program Repl).Reaches es p)
    (ho : Own es) : ∀ e ∈ es, e.call.isIntake = false := by
  have hc : (never r.leave : Program Repl).Calls (fun b c => b = true ∨ c.isIntake = false)
      (fun _ _ => True) false := by
    rw [never_leave_eq, calls_bind]
    refine (calls_foldlM_take (fun _ _ h => h) _ _).mono fun b t _ => ?_
    exact calls_never.2 (calls_exit.2 (.inr rfl))
  intro e he
  simpa using (hc.of_reaches h).1.of_own ho e he

theorem interprets_of_leave (h : (never r.leave : Program Repl).Reaches es p) (ho : Own es)
    (hs : Shows p out) : Interprets r.state r.parser.finish.popAll.1 es out := by
  have hdone : ∀ {fs t}, (r.parser.finish.popAll.1.foldlM take r.state).Returns fs t →
      Shows (never (exit t.lastStatus.toUInt32.toInt32) : Program Repl) out →
      Interprets r.state r.parser.finish.popAll.1 fs out := by
    intro fs t h hs
    simpa using interprets_append h (interprets_nil_iff.2 ⟨rfl, shows_exit_iff.1 hs⟩)
  rw [never_leave_eq] at h
  obtain ⟨q, hq, rfl⟩ | ⟨t, es₁, es₂, rfl, h₁, h₂⟩ := reaches_bind_iff.1 h
  · obtain hs' | ⟨t, rfl⟩ := hs.of_bind
    · simpa using (interprets_of_reaches hq ho hs' : Interprets _ (_ ++ []) es out)
    · exact hdone hq hs
  · obtain ⟨q, hq, rfl⟩ := reaches_never_iff.1 h₂
    obtain ⟨rfl, rfl⟩ | ⟨x, -⟩ := (reaches_ask_iff (c := .exit _)).1 hq
    · rw [List.append_nil]
      exact hdone h₁ hs
    · exact x.elim

theorem leave_of_interprets (h : Interprets r.state r.parser.finish.popAll.1 es out) :
    ∃ p, (never r.leave : Program Repl).Reaches es p ∧ Own es ∧ Shows p out := by
  rw [never_leave_eq]
  rw [← List.append_nil r.parser.finish.popAll.1] at h
  obtain ⟨p, hp, ho, hs⟩ | ⟨t, es₁, es₂, rfl, h₁, h₂⟩ := reaches_of_interprets h
  · exact ⟨_, hp.bind _, ho, hs.bind _⟩
  · obtain ⟨rfl, hout⟩ := interprets_nil_iff.1 h₂
    refine ⟨never (exit t.lastStatus.toUInt32.toInt32), ?_, by simpa using own_of_returns h₁,
      shows_exit_iff.2 hout⟩
    exact reaches_bind_iff.2 (.inr ⟨t, es₁, [], rfl, h₁, .refl _⟩)

/-- What is to be done by a shell when `s` is all the input to come. -/
def outstanding (r : Repl) (s : Bytes) : List (Except ParseError CommandLine) :=
  (Parser.popAll ⟨r.parser.buffer ++ s, true⟩).1

theorem outstanding_nil (r : Repl) : r.outstanding [] = r.parser.finish.popAll.1 := by
  rw [outstanding, List.append_nil]; rfl

theorem outstanding_append (r : Repl) (hr : r.parser.finished = false) (n : Nat) (u s : Bytes) :
    ∃ xs q, (r.parser.feed (u.take n)).popAll = (xs, q) ∧ q.finished = false ∧
      ∀ t, r.outstanding (u ++ s) =
        xs ++ outstanding { r with state := t, parser := q, ahead := u.drop n } (u.drop n ++ s) := by
  obtain ⟨state, ⟨b, f⟩, ahead, tty⟩ := r
  obtain rfl : f = false := hr
  obtain ⟨hf, ha⟩ := Parser.popAll_append (b ++ u.take n) true (u.drop n ++ s)
  refine ⟨_, _, rfl, hf, fun t => ?_⟩
  have hu : b ++ u.take n ++ (u.drop n ++ s) = b ++ (u ++ s) := by
    rw [List.append_assoc, ← List.append_assoc (u.take n), List.take_append_drop]
  rw [hu] at ha
  exact congrArg Prod.fst ha

/-- What a shell is given that has read the bytes `a` ahead: it takes them chunk by chunk, and reads
when there are none. -/
inductive Supplies : Bytes → Bytes → List (Except Errno Bytes) → Prop
  | ended : Supplies [] [] [.ok []]
  | failed {e : Errno} (h : e ≠ Errno.interrupted) : Supplies [] [] [.error e]
  | interrupted {s : Bytes} {rs : List (Except Errno Bytes)} (h : Supplies [] s rs) :
      Supplies [] s (.error Errno.interrupted :: rs)
  | piece {u s : Bytes} {rs : List (Except Errno Bytes)} (hu : u ≠ [])
      (h : Supplies (u.drop chunk) s rs) : Supplies [] (u ++ s) (.ok u :: rs)
  | ahead {a s : Bytes} {rs : List (Except Errno Bytes)} (ha : a ≠ [])
      (h : Supplies (a.drop chunk) s rs) : Supplies a s rs

theorem supplies_of_nil {s : Bytes} {rs : List (Except Errno Bytes)} (h : Supplies [] s rs)
    (a : Bytes) : Supplies a s rs := by
  by_cases ha : a = []
  · rwa [ha]
  · exact .ahead ha (supplies_of_nil h (a.drop chunk))
termination_by a.length
decreasing_by
  have := List.length_pos_iff.2 ha
  rw [List.length_drop, chunk]
  omega

theorem supplies_of_delivers {s : Bytes} {rs : List (Except Errno Bytes)} (h : Delivers s rs) :
    Supplies [] s rs := by
  induction h with
  | ended => exact .ended
  | failed he => exact .failed he
  | interrupted _ ih => exact .interrupted ih
  | piece hu _ _ ih => exact .piece hu (supplies_of_nil ih _)

/-- It is enough to know what happens from the first input on. -/
theorem interprets_of_first_input (h : Serves r es p) (hs : Shows p out)
    (hx : ∀ es₁ x es₂, es = es₁ ++ es₂ → r.intake.Returns es₁ x → Continues r x es₂ p →
      Interprets r.state xs (deeds es₂) out) : Interprets r.state xs (deeds es) out := by
  obtain ⟨hd, hout⟩ | ⟨es₁, y, es₂, rfl, hi, hc⟩ := h.first_input
  · rw [hd, hout out hs]
    exact .pause _ _
  · rw [deeds_append, (silent_of_intake hi).2.1, List.nil_append]
    exact hx es₁ y es₂ rfl hi hc

theorem interprets_of_first_read {rs : List (Except Errno Bytes)} (ha : r.ahead = [])
    (h : Serves r es p) (ho : Own es) (hrs : readings es <+: x :: rs) (hs : Shows p out)
    (hx : ∀ fs, Continues r x fs p → Own fs → readings fs <+: rs →
      Interprets r.state xs (deeds fs) out) : Interprets r.state xs (deeds es) out := by
  refine interprets_of_first_input h hs fun es₁ y es₂ he hi hc => ?_
  obtain ⟨-, hr⟩ | ⟨hne, -⟩ := readings_of_intake hi
  · rw [he, readings_append, hr] at hrs
    obtain ⟨rfl, hrs₂⟩ : y = x ∧ readings es₂ <+: rs := List.cons_prefix_cons.1 hrs
    exact hx es₂ hc (own_append.1 (he ▸ ho)).2 hrs₂
  · exact absurd ha hne

theorem interprets_of_continues {rs : List (Except Errno Bytes)} {u s : Bytes} (hu : u ≠ [])
    (hr : r.parser.finished = false) (h : Continues r (.ok u) es p) (ho : Own es)
    (hrs : readings es <+: rs) (hs : Shows p out)
    (hnext : ∀ r' fs, r'.ahead = u.drop chunk → r'.parser.finished = false → Serves r' fs p →
      Own fs → readings fs <+: rs →
      Interprets r'.state (r'.outstanding (u.drop chunk ++ s)) (deeds fs) out) :
    Interprets r.state (r.outstanding (u ++ s)) (deeds es) out := by
  obtain ⟨xs, q, hp, hq, hout⟩ := r.outstanding_append hr chunk u s
  rw [Continues, after_ok hu, runReady_eq, hp] at h
  obtain h | ⟨r', fs, gs, rfl, h, h'⟩ := h
  · rw [hout r.state]
    obtain ⟨p', hp', rfl⟩ | ⟨t, es₁, es₂, rfl, h₁, h₂⟩ := reaches_bind_iff.1 h
    · have hs' : Shows p' out := by
        obtain hs' | ⟨t, rfl⟩ := hs.of_bind
        · exact hs'
        · exact shows_done_iff.2 (shows_done_iff.1 hs)
      rw [deeds_eq_self (not_intake_of_reaches hp' ho)]
      exact interprets_of_reaches hp' ho hs'
    · obtain ⟨rfl, rfl⟩ := reaches_done_iff.1 h₂
      obtain rfl := shows_done_iff.1 hs
      rw [List.append_nil, deeds_eq_self (not_intake_of_reaches h₁ (own_of_returns h₁))]
      exact interprets_of_reaches h₁ (own_of_returns h₁) (shows_none _)
  · obtain ⟨t, es₁, es₂, rfl, h₁, h₂⟩ := returns_bind_iff.1 h
    obtain ⟨rfl, rfl⟩ := returns_done_iff.1 h₂
    have hn := not_intake_of_reaches h₁ (own_of_returns h₁)
    rw [List.append_nil, readings_append, readings_eq_nil hn, List.nil_append] at hrs
    rw [hout t, List.append_nil, deeds_append, deeds_eq_self hn]
    exact interprets_append h₁ (hnext _ _ rfl hq h' (own_append.1 ho).2 hrs)

theorem interprets_of_serves {s : Bytes} {rs : List (Except Errno Bytes)}
    (hd : Supplies r.ahead s rs) (hr : r.parser.finished = false) (h : Serves r es p)
    (ho : Own es) (hrs : readings es <+: rs) (hs : Shows p out) :
    Interprets r.state (r.outstanding (r.ahead ++ s)) (deeds es) out := by
  -- after the last read nothing returns
  have hlast : ∀ {r : Repl} {x fs p}, r.after x = never r.leave → Continues r x fs p → Own fs →
      Shows p out → Interprets r.state (r.outstanding []) (deeds fs) out := by
    intro r x fs p hx hc ho hs
    rw [outstanding_nil]
    rw [Continues, hx] at hc
    obtain h | ⟨r', gs, hs', rfl, h, -⟩ := hc
    · rw [deeds_eq_self (not_intake_of_reaches_leave h ho)]
      exact interprets_of_leave h ho hs
    · exact absurd h not_returns_never
  generalize ha : r.ahead = a at hd ⊢
  induction hd generalizing r es p with
  | ended =>
    refine interprets_of_first_read ha h ho hrs hs fun fs hc ho _ => ?_
    exact hlast rfl hc ho hs
  | failed he =>
    refine interprets_of_first_read ha h ho hrs hs fun fs hc ho _ => ?_
    exact hlast (by rw [after, if_neg he]) hc ho hs
  | interrupted hd ih =>
    refine interprets_of_first_read ha h ho hrs hs fun fs hc ho hrs => ?_
    obtain h | ⟨r', gs, hs', rfl, h, h'⟩ := hc
    · obtain ⟨rfl, rfl⟩ := reaches_done_iff.1 h
      obtain rfl := shows_done_iff.1 hs
      exact .pause _ _
    · obtain ⟨rfl, rfl⟩ := returns_done_iff.1 h
      exact ih hr h' ho hrs hs ha
  | @piece u s rs hu hd ih =>
    refine interprets_of_first_read ha h ho hrs hs fun fs hc ho hrs => ?_
    exact interprets_of_continues (u := u) (s := s) hu hr hc ho hrs hs
      fun r' gs ha' hr' h' ho' hrs' => ih hr' h' ho' hrs' hs ha'
  | @ahead a s rs hne hd ih =>
    refine interprets_of_first_input h hs fun es₁ x es₂ he hi hc => ?_
    obtain ⟨hnil, -⟩ | ⟨-, hreads, rfl⟩ := readings_of_intake hi
    · exact absurd (ha.symm.trans hnil) hne
    · rw [ha] at hc
      rw [he, readings_append, hreads, List.nil_append] at hrs
      exact interprets_of_continues hne hr hc (own_append.1 (he ▸ ho)).2 hrs hs
        fun r' gs ha' hr' h' ho' hrs' => ih hr' h' ho' hrs' hs ha'

theorem continues_of_interprets {rs : List (Except Errno Bytes)} {u s : Bytes} (hu : u ≠ [])
    (hr : r.parser.finished = false) (h : Interprets r.state (r.outstanding (u ++ s)) es out)
    (hnext : ∀ r' fs, r'.ahead = u.drop chunk → r'.parser.finished = false →
      Interprets r'.state (r'.outstanding (u.drop chunk ++ s)) fs out →
      ∃ gs p, Serves r' gs p ∧ Own gs ∧ readings gs <+: rs ∧ deeds gs = fs ∧ Shows p out) :
    ∃ gs p, Continues r (.ok u) gs p ∧ Own gs ∧ readings gs <+: rs ∧ deeds gs = es ∧
      Shows p out := by
  obtain ⟨xs, q, hp, hq, hout⟩ := r.outstanding_append hr chunk u s
  rw [hout r.state] at h
  have hafter := after_ok (r := r) hu
  rw [runReady_eq, hp] at hafter
  obtain ⟨p, hp, ho, hs⟩ | ⟨t, es₁, es₂, rfl, h₁, h₂⟩ := reaches_of_interprets h
  · have hn := not_intake_of_reaches hp ho
    have hc : Continues r (.ok u) es _ := .inl (by rw [hafter]; exact hp.bind _)
    exact ⟨es, _, hc, ho, by simp [readings_eq_nil hn], deeds_eq_self hn, hs.bind _⟩
  · have hn := not_intake_of_reaches h₁ (own_of_returns h₁)
    obtain ⟨fs, p, hserves, ho, hrs, rfl, hs⟩ := hnext
      { r with state := t, parser := q, ahead := u.drop chunk } _ rfl hq h₂
    refine ⟨es₁ ++ fs, p, .inr ⟨_, es₁, fs, rfl, ?_, hserves⟩,
      own_append.2 ⟨own_of_returns h₁, ho⟩, by simpa [readings_eq_nil hn] using hrs,
      by rw [deeds_append, deeds_eq_self hn], hs⟩
    rw [hafter]
    exact returns_bind_iff.2 ⟨t, es₁, [], (List.append_nil _).symm, h₁, .refl _⟩

theorem Continues.serves_read {rs : List (Except Errno Bytes)} (ha : r.ahead = [])
    (h : Continues r x es p) (ho : Own es) (hrs : readings es <+: rs) :
    ∃ gs, Serves r gs p ∧ Own gs ∧ readings gs <+: x :: rs ∧ deeds gs = deeds es := by
  obtain ⟨fs, gs, hi, rfl, hserves, ho, hd⟩ := h.serves (.inl ha) ho
  refine ⟨_, hserves, ho, ?_, hd⟩
  obtain ⟨-, hr⟩ | ⟨hne, -⟩ := readings_of_intake hi
  · rw [readings_append, hr]
    exact List.cons_prefix_cons.2 ⟨rfl, hrs⟩
  · exact absurd ha hne

theorem serves_of_interprets {s : Bytes} {rs : List (Except Errno Bytes)}
    (hd : Supplies r.ahead s rs) (hr : r.parser.finished = false)
    (h : Interprets r.state (r.outstanding (r.ahead ++ s)) es out) :
    ∃ fs p, Serves r fs p ∧ Own fs ∧ readings fs <+: rs ∧ deeds fs = es ∧ Shows p out := by
  have hlast : ∀ {r : Repl} {x fs}, r.ahead = [] → r.after x = never r.leave →
      Interprets r.state (r.outstanding []) fs out →
      ∃ gs p, Serves r gs p ∧ Own gs ∧ readings gs <+: [x] ∧ deeds gs = fs ∧ Shows p out := by
    intro r x fs ha hx hi
    rw [outstanding_nil] at hi
    obtain ⟨p, hp, ho, hs⟩ := leave_of_interprets hi
    have hn := not_intake_of_reaches_leave hp ho
    have hc : Continues r x fs p := .inl (hx ▸ hp)
    obtain ⟨gs, h, ho, hrs, hd⟩ := hc.serves_read ha ho
      (by simp [readings_eq_nil hn] : readings fs <+: [])
    exact ⟨gs, p, h, ho, hrs, by rw [hd, deeds_eq_self hn], hs⟩
  generalize ha : r.ahead = a at hd h
  induction hd generalizing r es with
  | ended => exact hlast ha rfl h
  | failed he => exact hlast ha (by rw [after, if_neg he]) h
  | interrupted hd ih =>
    obtain ⟨fs, p, hserves, ho, hrs, rfl, hs⟩ := ih hr ha h
    have hc : Continues r (.error Errno.interrupted) fs p :=
      .inr ⟨r, [], fs, rfl, .refl _, hserves⟩
    obtain ⟨gs, h, ho, hrs, hd⟩ := hc.serves_read ha ho hrs
    exact ⟨gs, p, h, ho, hrs, hd, hs⟩
  | @piece u s rs hu hd ih =>
    obtain ⟨fs, p, hc, ho, hrs, rfl, hs⟩ := continues_of_interprets (u := u) (s := s) hu hr h
      fun r' gs ha' hr' h' => ih hr' ha' h'
    obtain ⟨gs, h, ho, hrs, hd⟩ := hc.serves_read ha ho hrs
    exact ⟨gs, p, h, ho, hrs, hd, hs⟩
  | @ahead a s rs hne hd ih =>
    obtain ⟨fs, p, hc, ho, hrs, rfl, hs⟩ := continues_of_interprets hne hr h
      fun r' gs ha' hr' h' => ih hr' ha' h'
    obtain ⟨es₁, gs, hi, rfl, hserves, ho, hd⟩ := hc.serves (.inr (congrArg _ ha.symm)) ho
    obtain ⟨hnil, -⟩ | ⟨-, hreads, -⟩ := readings_of_intake hi
    · exact absurd (ha.symm.trans hnil) hne
    · exact ⟨_, p, hserves, ho, by rwa [readings_append, hreads], hd, hs⟩

/-- What is left to be done by a shell that has asked for the search path and what its input is, and
has read and carried out lines in the course of the events `es` after that. -/
def Runs (path : Option Bytes) (tty : Bool) (es : List Event) (p : Program Repl) : Prop :=
  ∃ r, start.Returns [⟨.environmentPath, path⟩, ⟨.isTerminal Fd.stdin, tty⟩] r ∧ Serves r es p

theorem runs_iff {path : Option Bytes} {tty : Bool} : Runs path tty es p ↔
    Serves ⟨State.ofSearchPath path, Parser.empty, [], tty⟩ es p := by
  have hstart : start = environmentPath >>= fun path => isTerminal Fd.stdin >>= fun tty =>
      done ⟨State.ofSearchPath path, Parser.empty, [], tty⟩ := rfl
  constructor
  · rintro ⟨r, h, hs⟩
    rw [hstart, returns_bind_iff] at h
    obtain ⟨path', es₁, es₂, he, h₁, h₂⟩ := h
    obtain ⟨tty', es₃, es₄, rfl, h₃, h₄⟩ := returns_bind_iff.1 h₂
    obtain rfl := (returns_ask_iff (c := .environmentPath)).1 h₁
    obtain rfl := (returns_ask_iff (c := .isTerminal Fd.stdin)).1 h₃
    obtain ⟨rfl, rfl⟩ := returns_done_iff.1 h₄
    cases he
    exact hs
  · intro hs
    refine ⟨_, ?_, hs⟩
    rw [hstart]
    refine returns_bind_iff.2 ⟨path, [_], [_], rfl, returns_ask_iff.2 rfl, ?_⟩
    exact returns_bind_iff.2 ⟨tty, [_], [], rfl, returns_ask_iff.2 rfl, .refl _⟩

/-- Whatever pieces a script is read in, however often a read is interrupted, and whether the input
ends or fails after it: the shell does with the lines of the script what the interpreter does with
them, call by call, and ends as it does. -/
theorem runs_iff_interprets {s : Bytes} {rs : List (Except Errno Bytes)} (h : Delivers s rs)
    (path : Option Bytes) (tty : Bool) (ds : List Event) (out : Option UInt8) :
    (∃ es p, Runs path tty es p ∧ Own es ∧ readings es <+: rs ∧ deeds es = ds ∧ Shows p out) ↔
      Interprets (State.ofSearchPath path) (Parser.results s) ds out := by
  simp only [runs_iff]
  constructor
  · rintro ⟨es, p, hserves, ho, hrs, rfl, hs⟩
    exact interprets_of_serves (supplies_of_delivers h) rfl hserves ho hrs hs
  · exact serves_of_interprets (r := ⟨State.ofSearchPath path, Parser.empty, [], tty⟩)
      (supplies_of_delivers h) rfl

/-- An error and an `exit`, in three reads that are no lines, the last of them failing. -/
theorem runs_error_exit :
    let e : Event := ⟨.write Fd.stderr ParseError.pipeAtStart.complaint, .error Errno.badDescriptor⟩
    ∃ es p, Runs none false es p ∧ Own es ∧
      readings es <+: [.error Errno.interrupted, .ok (Bytes.ofAscii "|\nexi"),
        .ok (Bytes.ofAscii "t 3"), .error Errno.badDescriptor] ∧
      deeds es = [e] ∧ Shows p (some 3) := by
  intro e
  have hd : Delivers (Bytes.ofAscii "|\nexit 3") [.error Errno.interrupted,
      .ok (Bytes.ofAscii "|\nexi"), .ok (Bytes.ofAscii "t 3"), .error Errno.badDescriptor] := by
    have h₁ : Delivers [] [.error Errno.badDescriptor] := .failed (by decide)
    have h₂ := h₁.piece (u := Bytes.ofAscii "t 3") (by decide) (by decide)
    exact (h₂.piece (u := Bytes.ofAscii "|\nexi") (by decide) (by decide)).interrupted
  have hresults : Parser.results (Bytes.ofAscii "|\nexit 3") = [.error .pipeAtStart,
      .ok ⟨[.command ⟨Bytes.ofAscii "exit", [Bytes.ofAscii "3"]⟩], none⟩] :=
    (Transcript.outcomes_closed _).symm.trans rfl
  refine (runs_iff_interprets hd none false [e] (some 3)).2 ?_
  have hends : CommandLine.EndsShell
      ⟨[.command ⟨Bytes.ofAscii "exit", [Bytes.ofAscii "3"]⟩], none⟩
      ⟨Bytes.ofAscii "exit", [Bytes.ofAscii "3"]⟩ := ⟨rfl, .inl rfl⟩
  have hcode : ExitCode.status (ExitCode.ofArguments [Bytes.ofAscii "3"]) = 3 := by decide
  rw [hresults, ← hcode]
  exact .error (.failed (by decide) (by decide)) (.exit hends)

end Repl

end PipeShell
