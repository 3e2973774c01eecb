import PipeShell.Proofs.Shell.Course

/-! What the target of redirections holds. Lines are evaluated one after the other, each with its
output sent to the same file. Main statements: what one line does to the file, which is what comes
from the standard output of its last command (`Evaluation.accounts`), and what it holds after any
number of lines (`contents_of_redirect_target`), unless somebody from before a line can still write
to it (`contents_with_writer_left`). -/
namespace PipeShell

open Program

variable {ι ρ : Type} {m : Machine ι} {sh : Pid} {f : FileName}

/-- The evaluation of a line with a redirection by process `sh`, which has come no further than to
its next line. -/
structure Evaluation (m : Machine ι) (ρ : Type) (sh : Pid) where
  state : State
  line : CommandLine
  redirect : Redirect
  redirects : line.redirect = some redirect
  rest : UInt8 × State → Program ρ
  shell : Process ι ρ
  before : System ι ρ
  begins : Begins before sh shell state line rest
  notes : List Note
  past : Pid → Past
  after : System ι ρ
  chronicle : Chronicle m before notes past after
  within : (past sh).Within state line

namespace Evaluation

variable (e : Evaluation m ρ sh)

/-- The child for the last command, if it has been forked. -/
def terminal? : Option Pid := (forked (e.past sh).code)[e.line.stages - 1]?

def opens : Bool := e.terminal?.any fun q => (e.past q).code.any fun ev => ev.settles = some .opened

/-- The open file that it has had as its standard output when it has become a program. -/
def stdout? : Option Nat := e.terminal?.bind fun q => e.notes.findSome? (Note.stdoutOf? q)

def output : Bytes := e.stdout?.elim [] (outputOf · e.notes)

/-- What the line contributes to its target. -/
def contribution? : Option (RedirectMode × Bytes) :=
  if e.opens then some (e.redirect.mode, e.output) else none

/-- Whether the redirection leads to the file `f`, which is a regular one if it is not missing, and
complaints go elsewhere. -/
structure Targets (f : FileName) : Prop where
  target : e.before.files.LeadsTo e.shell.credentials e.shell.directory e.redirect.target f
  sink : e.before.files.LeadsElsewhere e.shell.credentials e.shell.directory e.state.nullSink f
  regular : e.before.files.IsRegular f
  files : ∀ n g i, e.before.openFiles.get? n = some g → g.resource = .file i → e.before.files.Has i

/-- Whether nobody can write to the file `f` when the line begins. -/
def Unheld (f : FileName) : Prop :=
  ∀ pid x n i, e.before.process? pid = some x → e.before.Writes x n i →
    e.before.files.number? f ≠ some i

/-- What a line has to do with the file `f`. -/
structure Accounts (f : FileName) : Prop where
  /-- the child for the last command alone opens anything for output, once, and that is the target;
  who has it open has it from that child -/
  opened : e.notes.filterMap Note.opening? = [] ∨ ∃ q n, e.terminal? = some q ∧
    e.notes.filterMap Note.opening? = [(q, e.redirect, n)] ∧
    ∀ pid x, e.after.process? pid = some x → x.HasOpen n →
      pid = q ∨ (e.past q).Heir (e.past pid)
  counts : e.opens = true ↔ ∃ q fd, e.terminal? = some q ∧
    (⟨.openFile e.redirect.target (.create e.redirect.mode), .ok fd⟩ : Event) ∈ (e.past q).code
  text : e.after.files.text? f = if e.opens then
    some (e.redirect.mode.base (e.before.files.text? f) ++ e.output) else e.before.files.text? f
  /-- a child that has become a program has opened the target -/
  launched : ∀ q, e.terminal? = some q → (e.past q).image ≠ none → e.opens = true ∧
    ∃ c, e.line.commands[e.line.stages - 1]? = some c ∧ c.builtin? = none
  /-- which is its standard output if the shell has one -/
  stdout : ∀ q, e.terminal? = some q → (e.past q).image ≠ none → e.shell.IsOpen Fd.stdout →
    ∃ n, e.stdout? = some n ∧ (q, e.redirect, n) ∈ e.notes.filterMap Note.opening?
  /-- one that has not, be it for a built-in or for a failure, writes nothing -/
  silent : ∀ q, e.terminal? = some q → (e.past q).image = none → e.output = []
  /-- but if it has come to its end it has opened the target, or has failed to get as far as that -/
  exited : ∀ q code, e.terminal? = some q → (eval e.state e.line).Exits (e.past q).code code →
    e.opens = true ∨ Byte.nul ∈ e.redirect.target ∨
      ∃ ev ∈ (e.past q).code, ev.settles = some .failed
  failed : ∀ q ev, e.terminal? = some q → ev ∈ (e.past q).code → ev.settles = some .failed →
    e.opens = false
  /-- when the shell has waited for all its children, it alone runs its code, as before -/
  alone : (∀ q ∈ forked (e.past sh).code, ∃ t, (⟨.wait q, .ok t⟩ : Event) ∈ (e.past sh).code) →
    ∀ pid p, e.after.process? pid = some p → p.control.isCode = true → pid = sh

variable {e}

theorem untouched (ht : e.Targets f) (hu : e.Unheld f) :
    Untouched e.before e.shell e.state e.redirect f [] e.before where
  guards := ⟨ht.files, ht.regular, fun pid x n i hx hw hi => absurd hi (hu pid x n i hx hw)⟩
  target := ht.target
  sink := ht.sink
  text := rfl
  notes := rfl

theorem not_due_of_exits {q : Pid} {a : TargetState} {v : Bool}
    {code : Int32}
    (hx : (eval e.state e.line).Exits (e.past q).code code)
    (hs : standing (e.past q).code = .child (e.line.stages - 1) a v) :
    a ≠ .due ∨ Byte.nul ∈ e.redirect.target := by
  obtain ⟨again, k, hr⟩ := hx
  have hpermits := permits_of_reaches_eval e.redirects hr
  rw [hs] at hpermits
  by_cases ha : a = .due
  · exact .inr (hpermits (Nat.sub_add_cancel e.line.stages_pos) ha)
  · exact .inl ha

section Terminal

variable {q : Pid} (hq : e.terminal? = some q)
include hq

theorem reaches_of_terminal {z : Program ρ}
    (hz : (eval e.state e.line >>= e.rest).Reaches (e.past q).code z) :
    ∃ c again k, (eval e.state e.line).Reaches (e.past q).code (call c again k) ∧
      z = call c again fun x => k x >>= e.rest := by
  obtain ⟨-, -, hroot, a, v, hs⟩ := child_of_forked e.begins e.chronicle hq
  refine reaches_of_birth e.begins e.chronicle.run e.within hroot (fun ho => ?_) hz
  rw [standing_of_own ho] at hs
  cases hs

theorem executes_of_terminal : ∃ p : Process ι ρ,
    Executes (eval e.state e.line >>= e.rest) (e.past q) p := by
  obtain ⟨-, -, hroot, -⟩ := child_of_forked e.begins e.chronicle hq
  exact e.chronicle.run.exists_executes e.begins.numbered (hroot.symm ▸ e.begins.shell)
    e.begins.code

theorem standing_of_terminal : ∃ c again k a v,
    (eval e.state e.line).Reaches (e.past q).code (call c again k) ∧
    standing (e.past q).code = .child (e.line.stages - 1) a v := by
  obtain ⟨-, -, -, a, v, hs⟩ := child_of_forked e.begins e.chronicle hq
  obtain ⟨p, hx⟩ := executes_of_terminal hq
  obtain ⟨z, hz⟩ := hx.reaches
  obtain ⟨c, again, k, hr, -⟩ := reaches_of_terminal hq hz
  exact ⟨c, again, k, a, v, hr, hs⟩

theorem opened_of_image {a : TargetState} {v : Bool} (hi : (e.past q).image ≠ none)
    (hs : standing (e.past q).code = .child (e.line.stages - 1) a v) :
    a = .opened ∧ ∃ c, e.line.commands[e.line.stages - 1]? = some c ∧ c.builtin? = none := by
  obtain ⟨p, hx⟩ := executes_of_terminal hq
  obtain ⟨path, argv, again, k, hz⟩ := hx.became hi
  obtain ⟨c, again', k', hr, hcall⟩ := reaches_of_terminal hq hz
  cases hcall
  have hpermits := permits_of_reaches_eval e.redirects hr
  rw [hs] at hpermits
  exact ⟨hpermits.2 (Nat.sub_add_cancel e.line.stages_pos), hpermits.1⟩

end Terminal

theorem alone_of_waited
    (hw : ∀ q ∈ forked (e.past sh).code, ∃ t, (⟨.wait q, .ok t⟩ : Event) ∈ (e.past sh).code)
    (pid : Pid) (p : Process ι ρ) (hp : e.after.process? pid = some p)
    (hc : p.control.isCode = true) : pid = sh := by
  have hnumbered := e.begins.numbered
  obtain ⟨hroot, himage⟩ := root_of_isCode e.begins e.chronicle.run hp hc
  obtain ⟨prog, hprog⟩ := Control.isCode_iff.1 hc
  obtain ⟨p₁, -, hd⟩ := e.chronicle.run.descends hnumbered hp
  have hx := e.chronicle.run.executes hnumbered hp (hroot.symm ▸ e.begins.shell) e.begins.code
  have hreaches := (hx.code prog hprog).1
  obtain ho | ⟨fs, gs, hcode, ho⟩ := own_or_exists_birth (e.past pid).code
  · refine (hd.own ?_).trans hroot
    simpa [Past.events, himage] using ho
  · have hstanding := standing_of_birth ho gs
    rw [← hcode] at hstanding
    obtain ⟨a, v, hs⟩ := hstanding
    have hbirth : ¬Own (e.past pid).code := fun ho => by
      rw [standing_of_own ho] at hs
      cases hs
    obtain ⟨c, again, k, hr, -⟩ :=
      reaches_of_birth e.begins e.chronicle.run e.within hroot hbirth hreaches
    have hforked := forked_of_standing e.begins e.chronicle.run e.redirects hroot himage hr hs
    obtain ⟨t, ht⟩ := hw pid (List.mem_of_getElem? hforked)
    obtain ⟨ss, hss⟩ := e.chronicle.run.exists_history
    rw [(hss.outcome_of_wait hnumbered ht).2.1] at hp
    cases hp

theorem opens_iff {q : Pid} (hq : e.terminal? = some q) : e.opens = true ↔
    ∃ ev ∈ (e.past q).code, ev.settles = some .opened := by
  simp [opens, hq]

theorem target_of_opens (ho : e.opens = true) : ∃ q fd, e.terminal? = some q ∧
    (⟨.openFile e.redirect.target (.create e.redirect.mode), .ok fd⟩ : Event) ∈
      (e.past q).code := by
  cases hq : e.terminal? with
  | none => simp [opens, hq] at ho
  | some q =>
    obtain ⟨ev, hev, hsettles⟩ := (opens_iff hq).1 ho
    obtain ⟨path, mode, fd, rfl⟩ := Event.settles_eq_opened hsettles
    obtain ⟨c, again, k, a, v, hr, hs⟩ := standing_of_terminal hq
    obtain ⟨k, hp⟩ | ⟨a', v', ⟨hredirect, -⟩, -⟩ := permits_of_mem_child e.redirects hr hev hs
    · exact hp.elim
    · rw [hredirect]
      exact ⟨q, fd, rfl, hev⟩

theorem counts : e.opens = true ↔ ∃ q fd, e.terminal? = some q ∧
    (⟨.openFile e.redirect.target (.create e.redirect.mode), .ok fd⟩ : Event) ∈
      (e.past q).code :=
  ⟨target_of_opens, fun ⟨_, _, hq, hfd⟩ => (opens_iff hq).2 ⟨_, hfd, rfl⟩⟩

section Terminal

variable {q : Pid} (hq : e.terminal? = some q)
include hq

theorem opens_of_image (hi : (e.past q).image ≠ none) : e.opens = true ∧
    ∃ c, e.line.commands[e.line.stages - 1]? = some c ∧ c.builtin? = none := by
  obtain ⟨-, -, -, a, v, -, hs⟩ := standing_of_terminal hq
  obtain ⟨rfl, hc⟩ := opened_of_image hq hi hs
  exact ⟨(opens_iff hq).2 (exists_settles_of_standing hs nofun), hc⟩

theorem output_of_image (hi : (e.past q).image = none) : e.output = [] := by
  have hnone : e.notes.findSome? (Note.stdoutOf? q) = none :=
    Option.eq_none_iff_forall_ne_some.2 fun n hn =>
      (e.chronicle.image_of_launched e.begins.numbered (Note.mem_of_findSome?_stdoutOf? hn)).2 hi
  rw [output, stdout?, hq, Option.bind_some, hnone]
  rfl

theorem opens_of_exits {code : Int32} (hx : (eval e.state e.line).Exits (e.past q).code code) :
    e.opens = true ∨ Byte.nul ∈ e.redirect.target ∨
      ∃ ev ∈ (e.past q).code, ev.settles = some .failed := by
  obtain ⟨-, -, -, a, v, -, hs⟩ := standing_of_terminal hq
  obtain hdue | hnul := not_due_of_exits hx hs
  · cases a with
    | due => exact absurd rfl hdue
    | failed => exact .inr (.inr (exists_settles_of_standing hs hdue))
    | opened => exact .inl ((opens_iff hq).2 (exists_settles_of_standing hs hdue))
  · exact .inr (.inl hnul)

theorem not_opens_of_failed {ev : Event} (hev : ev ∈ (e.past q).code)
    (hfailed : ev.settles = some .failed) : e.opens = false := by
  obtain ⟨c, again, k, a, v, hr, hs⟩ := standing_of_terminal hq
  refine Bool.eq_false_iff.2 fun ho => ?_
  obtain ⟨ev', hev', hopened⟩ := (opens_iff hq).1 ho
  obtain rfl := settles_of_mem e.redirects hr hev hfailed nofun hs
  cases settles_of_mem e.redirects hr hev' hopened nofun hs

end Terminal

theorem not_opens_of_notes (h : e.notes.filterMap Note.opening? = []) : e.opens = false := by
  refine Bool.eq_false_iff.2 fun ho => ?_
  obtain ⟨q, fd, -, hfd⟩ := target_of_opens ho
  obtain ⟨q', n, hnote⟩ := e.chronicle.noted hfd
  cases List.filterMap_eq_nil_iff.1 h _ hnote

section Taken

variable {q : Pid} {n i : Nat}
  (ht : Taken e.before e.shell e.state e.line e.redirect f sh q n i e.notes e.past e.after)
include ht

theorem opens_of_taken : e.opens = true := by
  obtain ⟨v, hs⟩ := ht.opened
  exact (opens_iff ht.terminal).2 (exists_settles_of_standing hs nofun)

theorem stdout?_of_taken : e.stdout? = e.notes.findSome? (Note.stdoutOf? q) := by
  rw [stdout?, show e.terminal? = some q from ht.terminal, Option.bind_some]

theorem output_of_taken : e.output = outputOf n e.notes := by
  rw [output, stdout?_of_taken ht]
  cases hstdout : e.notes.findSome? (Note.stdoutOf? q) with
  | some k =>
    obtain hk | ⟨-, hk, -⟩ := ht.stdout (some k) (Note.mem_of_findSome?_stdoutOf? hstdout)
    · rw [Option.some.inj hk]
      rfl
    · cases hk
  | none =>
    -- it has become no program, or its open file has been closed then
    show [] = outputOf n e.notes
    by_cases hi : (e.past q).image = none
    · exact (ht.silent hi).symm
    · obtain ⟨o, ho⟩ := ht.launched hi
      obtain rfl | ⟨-, -, habandoned⟩ := ht.stdout o ho
      · cases Note.eq_none_of_findSome?_stdoutOf? hstdout ho
      · exact habandoned.output.symm

theorem stdout_of_taken (hi : (e.past q).image ≠ none) (ho : e.shell.IsOpen Fd.stdout) :
    e.stdout? = some n := by
  rw [stdout?_of_taken ht]
  obtain ⟨o, hm⟩ := ht.launched hi
  have hsome : ∀ o, .launched q o ∈ e.notes → o = some n := fun o hm =>
    (ht.stdout o hm).resolve_right fun h => h.1 ho
  obtain rfl := hsome o hm
  cases hstdout : e.notes.findSome? (Note.stdoutOf? q) with
  | some k => exact hsome _ (Note.mem_of_findSome?_stdoutOf? hstdout)
  | none => cases Note.eq_none_of_findSome?_stdoutOf? hstdout hm

end Taken

theorem accounts (hm : m.OnlyReads) (ht : e.Targets f) (hu : e.Unheld f) : e.Accounts f := by
  have hfate := e.chronicle.untouched_or_taken e.begins hm e.redirects (untouched ht hu) e.within
  refine {
    opened := ?opened
    counts := counts
    text := ?text
    launched := fun q hq hi => opens_of_image hq hi
    stdout := ?stdout
    silent := fun q hq hi => output_of_image hq hi
    exited := fun q code hq hx => opens_of_exits hq hx
    failed := fun q ev hq hev hfailed => not_opens_of_failed hq hev hfailed
    alone := alone_of_waited }
  case opened =>
    obtain hu | ⟨q, n, i, ht⟩ := hfate
    · exact .inl hu.notes
    · exact .inr ⟨q, n, ht.terminal, ht.notes, ht.holders⟩
  case text =>
    obtain hu | ⟨q, n, i, ht⟩ := hfate
    · rw [not_opens_of_notes hu.notes]
      exact hu.text
    · rw [opens_of_taken ht, output_of_taken ht]
      exact ht.fills.text
  case stdout =>
    intro q hq hi ho
    obtain hu | ⟨q', n, i, ht⟩ := hfate
    · cases (opens_of_image hq hi).1.symm.trans (not_opens_of_notes hu.notes)
    · obtain rfl := Option.some.inj (ht.terminal.symm.trans hq)
      refine ⟨n, stdout_of_taken ht hi ho, ?_⟩
      rw [ht.notes]
      exact List.mem_singleton_self _

end Evaluation

/-- Lines evaluated one after the other, by which the content of the file `f` goes from the one to
the other. Between them nothing changes the file. -/
inductive Lines (f : FileName) :
    Option Bytes → List (Evaluation m ρ sh) → Option Bytes → Prop
  | nil (x : Option Bytes) : Lines f x [] x
  | cons {e : Evaluation m ρ sh} {es : List (Evaluation m ρ sh)} {y : Option Bytes}
      (ht : e.Targets f) (hs : Lines f (e.after.files.text? f) es y) :
      Lines f (e.before.files.text? f) (e :: es) y

/-- What becomes of a file that holds `x` by the outputs `os`. -/
structure Concatenation (x : Option Bytes) (os : List (RedirectMode × Bytes)) (y : Option Bytes) :
    Prop where
  none : os = [] → y = x
  append : os ≠ [] → (∀ o ∈ os, o.1 = .append) → y = some (x.getD [] ++ (os.map Prod.snd).flatten)
  truncate : ∀ before s after, os = before ++ (.truncate, s) :: after →
    (∀ o ∈ after, o.1 = .append) → y = some (s ++ (after.map Prod.snd).flatten)

def RedirectMode.store (x : Option Bytes) (o : RedirectMode × Bytes) : Option Bytes :=
  some (o.1.base x ++ o.2)

theorem foldl_store_append (s : Bytes) (os : List (RedirectMode × Bytes))
    (h : ∀ o ∈ os, o.1 = .append) :
    os.foldl RedirectMode.store (some s) = some (s ++ (os.map Prod.snd).flatten) := by
  induction os generalizing s with
  | nil => simp
  | cons o os ih =>
    obtain ⟨ho, hos⟩ := List.forall_mem_cons.1 h
    have hstore : RedirectMode.store (some s) o = some (s ++ o.2) := by
      simp [RedirectMode.store, RedirectMode.base, ho]
    rw [List.foldl_cons, hstore, ih _ hos]
    simp

theorem concatenation_foldl (x : Option Bytes) (os : List (RedirectMode × Bytes)) :
    Concatenation x os (os.foldl RedirectMode.store x) where
  none h := by rw [h, List.foldl_nil]
  append hne h := by
    obtain ⟨o, os, rfl⟩ := List.exists_cons_of_ne_nil hne
    obtain ⟨ho, hos⟩ := List.forall_mem_cons.1 h
    have hstore : RedirectMode.store x o = some (x.getD [] ++ o.2) := by
      simp [RedirectMode.store, RedirectMode.base, ho]
    rw [List.foldl_cons, hstore, foldl_store_append _ os hos]
    simp
  truncate before s after hos h := by
    have hstore : ∀ t, RedirectMode.store t (.truncate, s) = some s := fun t => rfl
    rw [hos, List.foldl_append, List.foldl_cons, hstore, foldl_store_append s after h]

theorem Lines.eq_foldl (hm : m.OnlyReads) {x y : Option Bytes} {es : List (Evaluation m ρ sh)}
    (h : Lines f x es y) (hu : ∀ e ∈ es, e.Unheld f) :
    y = (es.filterMap Evaluation.contribution?).foldl RedirectMode.store x := by
  induction h with
  | nil => rfl
  | @cons e es y ht _ ih =>
    obtain ⟨he, hes⟩ := List.forall_mem_cons.1 hu
    rw [ih hes, (Evaluation.accounts hm ht he).text, List.filterMap_cons, Evaluation.contribution?]
    cases e.opens <;> rfl

theorem contents_of_redirect_target (hm : m.OnlyReads) {x y : Option Bytes}
    {es : List (Evaluation m ρ sh)} (h : Lines f x es y) (hu : ∀ e ∈ es, e.Unheld f) :
    Concatenation x (es.filterMap Evaluation.contribution?) y ∧ ∀ e ∈ es, e.Accounts f := by
  refine ⟨?_, ?_⟩
  · rw [h.eq_foldl hm hu]
    exact concatenation_foldl x _
  · induction h with
    | nil =>
      intro e he
      cases he
    | cons ht _ ih =>
      obtain ⟨he, hes⟩ := List.forall_mem_cons.1 hu
      exact List.forall_mem_cons.2 ⟨Evaluation.accounts hm ht he, ih hes⟩

namespace LateWriter

def machine : Machine Nat where
  load _ _ := 0
  move
    | 0 => ⟨.fork, fun r => match (r : Except Errno ForkSide) with
      | .ok .child => 2
      | _ => 1⟩
    | 2 => ⟨.write Fd.stdout [120], fun _ => 1⟩
    | _ => ⟨.exit 0, fun r => r.elim⟩

theorem onlyReads : machine.OnlyReads := by
  intro i path mode h
  match i with
  | 0 | 1 | 2 | n + 3 => cases h

def entries : List (Bytes × Nat) :=
  [(Bytes.ofAscii "late", 1), (Bytes.ofAscii "null", 2), (Bytes.ofAscii "f", 3)]

def files (s : Bytes) : FileTree :=
  let user (c : Content) : Inode := ⟨c, 0o755, 0, 0⟩
  ⟨⟨[(0, user (.directory 0 entries)), (1, user (.image (Bytes.ofAscii "late"))),
    (2, user .nullDevice), (3, user (.regular s)), (4, user (.regular []))],
    (by decide : [0, 1, 2, 3, 4].Nodup)⟩⟩

def target : FileName := ⟨0, Bytes.ofAscii "f"⟩

def user : Credentials := ⟨0, 0, true⟩

def targetAt (position : Nat) : OpenFile := ⟨.file 3, false, true, false, position⟩

def sink : OpenFile := ⟨.file 2, false, true, false, 0⟩

def opened (fs : List OpenFile) : Table OpenFile :=
  fs.foldl (fun t f => t.set t.above f)
    ⟨[(0, ⟨.source 0, true, false, false, 0⟩), (1, ⟨.file 4, false, true, true, 0⟩)], by decide⟩

def streams (output errors : Nat) : Table Descriptor :=
  ⟨[(0, ⟨0, false⟩), (1, ⟨output, false⟩), (2, ⟨errors, false⟩)], (by decide : [0, 1, 2].Nodup)⟩

def process (parent : Pid) (c : Control Nat UInt8) (ds : Table Descriptor) (ignores : Bool) :
    Process Nat UInt8 :=
  ⟨parent, c, ds, 0, none, user, ignores, false, 16, none, none⟩

def system (s : Bytes) (fs : Table OpenFile) (ps : Table (Process Nat UInt8)) (next : Pid) :
    System Nat UInt8 :=
  ⟨files s, fs, Table.empty, 8, Table.empty, ps, next, 0⟩

def late : CommandLine :=
  ⟨[.command ⟨Bytes.ofAscii "/late", []⟩], some ⟨Bytes.ofAscii "/f", .truncate⟩⟩

def cd : CommandLine :=
  ⟨[.command ⟨Bytes.ofAscii "cd", []⟩], some ⟨Bytes.ofAscii "/f", .truncate⟩⟩

def state : State := ⟨none, Bytes.ofAscii "/null", 0⟩

def second (x : UInt8 × State) : Program UInt8 := eval x.2 cd >>= fun x => done x.1

def shell : Process Nat UInt8 := process 0 (.code (eval state late >>= second)) (streams 1 1) true

def boot : System Nat UInt8 := system [111] (opened []) (Table.empty.set 1 shell) 2

theorem place_entry (s : Bytes) : ∀ e ∈ entries, (files s).place user 0 (Byte.slash :: e.1) =
    .ok (.entry 0 e.1 (some e.2) false) := by
  intro e he
  simp only [entries, List.mem_cons, List.not_mem_nil, or_false] at he
  obtain rfl | rfl | rfl := he
  · show (files s).follow user FileTree.linkLimit 0 [Bytes.ofAscii "late"] false = _
    rw [FileTree.follow]
    rfl
  · show (files s).follow user FileTree.linkLimit 0 [Bytes.ofAscii "null"] false = _
    rw [FileTree.follow]
    rfl
  · show (files s).follow user FileTree.linkLimit 0 [Bytes.ofAscii "f"] false = _
    rw [FileTree.follow]
    rfl

theorem place_f (s : Bytes) : (files s).place user 0 (Bytes.ofAscii "/f") =
    .ok (.entry 0 (Bytes.ofAscii "f") (some 3) false) :=
  place_entry s (Bytes.ofAscii "f", 3) (by decide)

theorem place_null (s : Bytes) : (files s).place user 0 (Bytes.ofAscii "/null") =
    .ok (.entry 0 (Bytes.ofAscii "null") (some 2) false) :=
  place_entry s (Bytes.ofAscii "null", 2) (by decide)

theorem find_late (s : Bytes) : (files s).find user 0 (Bytes.ofAscii "/late") =
    .ok (1, ⟨.image (Bytes.ofAscii "late"), 0o755, 0, 0⟩) := by
  have hplace := place_entry s (Bytes.ofAscii "late", 1) (by decide)
  show ((files s).place user 0 (Bytes.ofAscii "/late") >>= _) = _
  erw [hplace]
  rfl

theorem openAs_f (s : Bytes) : (files s).openAs user 0 (Bytes.ofAscii "/f") (.create .truncate) =
    .ok (files [], 3) := by
  show ((files s).place user 0 (Bytes.ofAscii "/f") >>= _) = _
  rw [place_f]
  rfl

theorem openAs_null (s : Bytes) : (files s).openAs user 0 (Bytes.ofAscii "/null") .write =
    .ok (files s, 2) := by
  show ((files s).find user 0 (Bytes.ofAscii "/null") >>= _) = _
  rw [FileTree.find, place_null]
  rfl

theorem program_late (s : Bytes) : (files s).program user 0 Header.depth (Bytes.ofAscii "/late")
    [Bytes.ofAscii "/late"] = .ok (Bytes.ofAscii "late", [Bytes.ofAscii "/late"]) := by
  delta FileTree.program
  show ((files s).find user 0 (Bytes.ofAscii "/late") >>= _) = _
  rw [find_late]
  rfl

theorem answer_f (s : Bytes) (fs : List OpenFile) (ps : Table (Process Nat UInt8)) (next pid : Pid)
    (c : Control Nat UInt8) :
    (system s (opened fs) ps next).answer pid (process 1 c (streams 1 1) false)
      (.openFile (Bytes.ofAscii "/f") (.create .truncate)) =
    some (.ok 3, system [] ((opened fs).set (opened fs).above (targetAt 0))
      (ps.set pid (process 1 c ((streams 1 1).set 3 ⟨(opened fs).above, true⟩) false)) next) := by
  have hpath : (system s (opened fs) ps next).openPath pid (process 1 c (streams 1 1) false)
      (Bytes.ofAscii "/f") (.create .truncate) =
      .ok (system [] ((opened fs).set (opened fs).above (targetAt 0))
        (ps.set pid (process 1 c ((streams 1 1).set 3 ⟨(opened fs).above, true⟩) false)) next,
        3) := by
    show ((files s).openAs user 0 (Bytes.ofAscii "/f") (.create .truncate) >>= _) = _
    rw [openAs_f]
    rfl
  rw [System.answer, hpath]

theorem answer_null (s : Bytes) (fs : List OpenFile) (ps : Table (Process Nat UInt8))
    (next pid : Pid) (c : Control Nat UInt8) :
    (system s (opened fs) ps next).answer pid (process 1 c (streams 2 1) false)
      (.openFile (Bytes.ofAscii "/null") .write) =
    some (.ok 3, system s ((opened fs).set (opened fs).above sink)
      (ps.set pid (process 1 c ((streams 2 1).set 3 ⟨(opened fs).above, true⟩) false)) next) := by
  have hpath : (system s (opened fs) ps next).openPath pid (process 1 c (streams 2 1) false)
      (Bytes.ofAscii "/null") .write =
      .ok (system s ((opened fs).set (opened fs).above sink)
        (ps.set pid (process 1 c ((streams 2 1).set 3 ⟨(opened fs).above, true⟩) false)) next,
        3) := by
    show ((files s).openAs user 0 (Bytes.ofAscii "/null") .write >>= _) = _
    rw [openAs_null]
    rfl
  rw [System.answer, hpath]

theorem answer_late (s : Bytes) (fs : List OpenFile) (ps : Table (Process Nat UInt8))
    (next pid : Pid) (c : Control Nat UInt8) :
    (system s (opened fs) ps next).answer pid (process 1 c (streams 2 1) false)
      (.access (Bytes.ofAscii "/late")) =
    some (.ok (), system s (opened fs) ps next) := by
  show some (((files s).find user 0 (Bytes.ofAscii "/late") >>= _), _) = _
  rw [find_late]
  rfl

def waited : Process Nat UInt8 :=
  process 0 (.code (eval state cd >>= fun x => done x.1)) (streams 1 1) true

def writer (i : Nat) : Process Nat UInt8 := process 2 (.image i) (streams 2 3) false

def table (p q : Process Nat UInt8) (ps : List (Pid × Process Nat UInt8)) :
    Table (Process Nat UInt8) :=
  ps.foldl (fun t x => t.set x.1 x.2) ((Table.empty.set 1 p).set 3 q)

def pair (a b : Process Nat UInt8) : Table (Process Nat UInt8) := (Table.empty.set 1 a).set 2 b

def left : System Nat UInt8 := system [] (opened [targetAt 0, sink]) (table waited (writer 2) []) 4

theorem chronicle_late : ∃ H, Chronicle machine boot
      [.opened 2 (Bytes.ofAscii "/f") .truncate 2, .launched 2 (some 2)] H left ∧
    (H 1).code = [⟨.fork, .ok (.parent 2)⟩, ⟨.wait 2, .ok (.exited 0)⟩] ∧
    ((H 2).code.any fun ev => ev.settles = some .opened) = true := by
  let os : List Note := [.opened 2 (Bytes.ofAscii "/f") .truncate 2]
  let ls : List Note := os ++ [.launched 2 (some 2)]
  let shell (c : Control Nat UInt8) : Process Nat UInt8 := process 0 c (streams 1 1) true
  have h : Chronicle machine boot [] _ boot := .start
  have h : Chronicle machine boot [] _ (system [111] (opened [])
      (pair (shell _) (process 1 _ (streams 1 1) true)) 3) :=
    (h.deed (.other (.forked (rfl : System.process? _ 1 = some _) rfl rfl) rfl rfl) :)
  have h : Chronicle machine boot [] _ (system [111] (opened [])
      (pair (shell _) (process 1 _ (streams 1 1) false)) 3) :=
    (h.deed (.answered (rfl : System.process? _ 2 = some _) rfl rfl) :)
  -- it does without a sink for complaints, and takes the file for its output
  have h : Chronicle machine boot [] _ (system [111] (opened [])
      (pair (shell _) (process 1 _ (streams 1 1) false)) 3) :=
    (h.deed (.other (.refused (rfl : System.process? _ 2 = some _) rfl
      (.openFile _ _ Errno.noEntry)) rfl rfl) :)
  have h : Chronicle machine boot os _ (system [] (opened [targetAt 0])
      (pair (shell _) (process 1 _ ((streams 1 1).set 3 ⟨2, true⟩) false)) 3) :=
    (h.deed (.answered (rfl : System.process? _ 2 = some _) rfl (answer_f _ _ _ _ _ _)) :)
  have h : Chronicle machine boot os _ (system [] (opened [targetAt 0])
      (pair (shell _) (process 1 _ ((streams 2 1).set 3 ⟨2, true⟩) false)) 3) :=
    (h.deed (.answered (rfl : System.process? _ 2 = some _) rfl rfl) :)
  have h : Chronicle machine boot os _ (system [] (opened [targetAt 0])
      (pair (shell _) (process 1 _ (streams 2 1) false)) 3) :=
    (h.deed (.answered (rfl : System.process? _ 2 = some _) rfl rfl) :)
  -- the program can be launched, and complaints go to the sink this time
  have h : Chronicle machine boot os _ (system [] (opened [targetAt 0])
      (pair (shell _) (process 1 _ (streams 2 1) false)) 3) :=
    (h.deed (.answered (rfl : System.process? _ 2 = some _) rfl (answer_late _ _ _ _ _ _)) :)
  have h : Chronicle machine boot os _ (system [] (opened [targetAt 0, sink])
      (pair (shell _) (process 1 _ ((streams 2 1).set 3 ⟨3, true⟩) false)) 3) :=
    (h.deed (.answered (rfl : System.process? _ 2 = some _) rfl (answer_null _ _ _ _ _ _)) :)
  have h : Chronicle machine boot os _ (system [] (opened [targetAt 0, sink])
      (pair (shell _) (process 1 _ ((streams 2 3).set 3 ⟨3, true⟩) false)) 3) :=
    (h.deed (.answered (rfl : System.process? _ 2 = some _) rfl rfl) :)
  have h : ∃ k, Chronicle machine boot os _ (system [] (opened [targetAt 0, sink])
      (pair (shell _) (process 1 (.code (call (.exec (Bytes.ofAscii "/late")
        [Bytes.ofAscii "/late"]) (fun _ => false) k)) (streams 2 3) false)) 3) :=
    ⟨_, (h.deed (.answered (rfl : System.process? _ 2 = some _) rfl rfl) :)⟩
  obtain ⟨k, h⟩ := h
  let x : Process Nat UInt8 := process 1 (.code (call (.exec (Bytes.ofAscii "/late")
    [Bytes.ofAscii "/late"]) (fun _ => false) k)) (streams 2 3) false
  have hn : x.next? machine = some ⟨.exec (Bytes.ofAscii "/late") [Bytes.ofAscii "/late"],
    fun r => .code (k r)⟩ := rfl
  have h : Chronicle machine boot ls _ (system [] (opened [targetAt 0, sink])
      (pair (shell _) (process 1 (.image 0) (streams 2 3) false)) 3) :=
    (h.deed (.other (.became (rfl : System.process? _ 2 = some x) hn (program_late _)) rfl rfl) :)
  -- it forks and exits, and the shell has waited for it
  have h : Chronicle machine boot ls _ (system [] (opened [targetAt 0, sink])
      ((pair (shell _) (process 1 (.image 1) (streams 2 3) false)).set 3 (writer 2)) 4) :=
    (h.deed (.other (.forked (rfl : System.process? _ 2 = some _) rfl rfl) rfl rfl) :)
  have h : Chronicle machine boot ls _ (system [] (opened [targetAt 0, sink])
      ((pair (shell _) (process 1 (.ended (.exited 0)) Table.empty false)).set 3 (writer 2)) 4) :=
    (h.deed (.other (.exited (rfl : System.process? _ 2 = some _) rfl) rfl rfl) :)
  have h : Chronicle machine boot ls _ left :=
    (h.deed (.answered (rfl : System.process? _ 1 = some _) rfl rfl) :)
  exact ⟨_, h, rfl, rfl⟩

theorem chronicle_cd : ∃ H, Chronicle machine left
      [.opened 4 (Bytes.ofAscii "/f") .truncate 4, .wrote 2 [120]] H
      (system [120] (opened [targetAt 1, sink, targetAt 0])
        (table (process 0 (.code (done 1)) (streams 1 1) true) (writer 1) []) 5) ∧
    (H 1).code = [⟨.fork, .ok (.parent 4)⟩, ⟨.wait 4, .ok (.exited 1)⟩] ∧
    ((H 4).code.any fun ev => ev.settles = some .opened) = true := by
  let shell (c : Control Nat UInt8) : Process Nat UInt8 := process 0 c (streams 1 1) true
  have h : Chronicle machine left [] _ left := .start
  have h : Chronicle machine left _ _ (system [] (opened [targetAt 0, sink])
      (table (shell _) (writer 2) [(4, process 1 _ (streams 1 1) true)]) 5) :=
    (h.deed (.other (.forked (rfl : System.process? _ 1 = some _) rfl rfl) rfl rfl) :)
  have h : Chronicle machine left _ _ (system [] (opened [targetAt 0, sink])
      (table (shell _) (writer 2) [(4, process 1 _ (streams 1 1) false)]) 5) :=
    (h.deed (.answered (rfl : System.process? _ 4 = some _) rfl rfl) :)
  have h : Chronicle machine left _ _ (system [] (opened [targetAt 0, sink])
      (table (shell _) (writer 2) [(4, process 1 _ (streams 1 1) false)]) 5) :=
    (h.deed (.other (.refused (rfl : System.process? _ 4 = some _) rfl
      (.openFile _ _ Errno.noEntry)) rfl rfl) :)
  have h : Chronicle machine left _ _ (system [] (opened [targetAt 0, sink, targetAt 0])
      (table (shell _) (writer 2) [(4, process 1 _ ((streams 1 1).set 3 ⟨4, true⟩) false)]) 5) :=
    (h.deed (.answered (rfl : System.process? _ 4 = some _) rfl (answer_f _ _ _ _ _ _)) :)
  -- the file has been emptied for this line
  have h : Chronicle machine left _ _ (system [120] (opened [targetAt 1, sink, targetAt 0])
      (table (shell _) (writer 1) [(4, process 1 _ ((streams 1 1).set 3 ⟨4, true⟩) false)]) 5) :=
    (h.deed (.answered (rfl : System.process? _ 3 = some _) rfl rfl) :)
  have h : Chronicle machine left _ _ (system [120] (opened [targetAt 1, sink, targetAt 0])
      (table (shell _) (writer 1) [(4, process 1 _ ((streams 4 1).set 3 ⟨4, true⟩) false)]) 5) :=
    (h.deed (.answered (rfl : System.process? _ 4 = some _) rfl rfl) :)
  have h : Chronicle machine left _ _ (system [120] (opened [targetAt 1, sink, targetAt 0])
      (table (shell _) (writer 1) [(4, process 1 _ (streams 4 1) false)]) 5) :=
    (h.deed (.answered (rfl : System.process? _ 4 = some _) rfl rfl) :)
  have h : Chronicle machine left _ _ (system [120] (opened [targetAt 1, sink, targetAt 0])
      (table (shell _) (writer 1) [(4, process 1 _ (streams 4 1) false)]) 5) :=
    (h.deed (.other (.refused (rfl : System.process? _ 4 = some _) rfl
      (.chdir _ Errno.accessDenied)) rfl rfl) :)
  have h : Chronicle machine left _ _ (system [120] (opened [targetAt 1, sink, targetAt 0])
      (table (shell _) (writer 1) [(4, process 1 (.ended (.exited 1)) Table.empty false)]) 5) :=
    (h.deed (.other (.exited (rfl : System.process? _ 4 = some _) rfl) rfl rfl) :)
  have h : Chronicle machine left _ _ (system [120] (opened [targetAt 1, sink, targetAt 0])
      (table (process 0 (.code (done 1)) (streams 1 1) true) (writer 1) []) 5) :=
    (h.deed (.answered (rfl : System.process? _ 1 = some _) rfl rfl) :)
  exact ⟨_, h, rfl, rfl⟩

theorem process?_boot {pid : Pid} {p : Process Nat UInt8} (hp : boot.process? pid = some p) :
    pid = 1 ∧ p = shell := by
  have hm : (pid, p) ∈ [(1, shell)] := (Table.get?_eq_some_iff _ _ _).1 hp
  simpa using hm

theorem process?_left {pid : Pid} {p : Process Nat UInt8} (hp : left.process? pid = some p) :
    pid = 1 ∧ p = waited ∨ pid = 3 ∧ p = writer 2 := by
  have hm : (pid, p) ∈ [(1, waited), (3, writer 2)] := (Table.get?_eq_some_iff _ _ _).1 hp
  simpa using hm

theorem begins_late : Begins boot 1 shell state late second where
  numbered pid p hp := by
    rw [(process?_boot hp).1]
    exact Nat.one_lt_two
  sound := by
    refine ⟨fun pid p hp fd d hd => ?_, fun n f q hf hr => ?_⟩
    · obtain ⟨-, rfl⟩ := process?_boot hp
      have hd : (fd, d) ∈ (streams 1 1).entries := (Table.get?_eq_some_iff _ _ _).1 hd
      simp only [streams, List.mem_cons, Prod.mk.injEq, List.not_mem_nil, or_false] at hd
      obtain ⟨-, rfl⟩ | ⟨-, rfl⟩ | ⟨-, rfl⟩ := hd <;> exact ⟨_, rfl⟩
    · have hm : (n, f) ∈ (opened []).entries := (Table.get?_eq_some_iff _ _ _).1 hf
      simp only [opened, List.foldl_nil, List.mem_cons, Prod.mk.injEq, List.not_mem_nil,
        or_false] at hm
      obtain ⟨-, rfl⟩ | ⟨-, rfl⟩ := hm <;> simp at hr
  shell := rfl
  code := rfl
  alone pid p hp _ := (process?_boot hp).1

theorem files_mem (s : Bytes) : (files s).LeadsTo user 0 (Bytes.ofAscii "/f") target ∧
    (files s).LeadsElsewhere user 0 (Bytes.ofAscii "/null") target ∧
    (files s).IsRegular target := by
  refine ⟨fun p hp => ?_, fun p hp => ?_, fun i hi => ?_⟩
  · rw [place_f] at hp
    cases hp
    exact ⟨rfl, nofun⟩
  · rw [place_null] at hp
    cases hp
    exact ⟨⟨_, rfl⟩, nofun⟩
  · cases hi
    exact ⟨s, rfl⟩

theorem targets (x : Evaluation machine UInt8 1) (s : Bytes) (fs : List OpenFile)
    (hfiles : x.before.files = files s) (hopen : x.before.openFiles = opened fs)
    (hfs : ∀ x ∈ (opened fs).entries, x.2.resource ∈ [Resource.source 0, .file 2, .file 3, .file 4])
    (hshell : x.shell.credentials = user ∧ x.shell.directory = 0)
    (hsink : x.state.nullSink = Bytes.ofAscii "/null")
    (htarget : x.redirect.target = Bytes.ofAscii "/f") : x.Targets target := by
  obtain ⟨hleads, helse, hregular⟩ := files_mem s
  refine ⟨?_, ?_, hfiles ▸ hregular, ?_⟩
  · rw [hfiles, hshell.1, hshell.2, htarget]
    exact hleads
  · rw [hfiles, hshell.1, hshell.2, hsink]
    exact helse
  · intro n g i hg hi
    rw [hfiles]
    have hmem := hfs _ ((Table.get?_eq_some_iff _ _ _).1 (hopen ▸ hg))
    simp only [hi, List.mem_cons, reduceCtorEq, Resource.file.injEq, List.not_mem_nil, or_false,
      false_or] at hmem
    obtain rfl | rfl | rfl := hmem <;> exact ⟨_, rfl⟩

def lateLine {ns : List Note} {H : Pid → Past} {s : System Nat UInt8}
    (h : Chronicle machine boot ns H s)
    (hcode : (H 1).code = [⟨.fork, .ok (.parent 2)⟩, ⟨.wait 2, .ok (.exited 0)⟩]) :
    Evaluation machine UInt8 1 where
  state := state
  line := late
  redirect := ⟨Bytes.ofAscii "/f", .truncate⟩
  redirects := rfl
  rest := second
  shell := shell
  before := boot
  begins := begins_late
  notes := ns
  past := H
  after := s
  chronicle := h
  within := .inr ⟨(0, state), _, [], (List.append_nil _).symm,
    hcode ▸ .next rfl (.next rfl (.refl _)), nofun⟩

theorem targets_late {ns : List Note} {H : Pid → Past} {s : System Nat UInt8}
    (h : Chronicle machine boot ns H s)
    (hcode : (H 1).code = [⟨.fork, .ok (.parent 2)⟩, ⟨.wait 2, .ok (.exited 0)⟩]) :
    (lateLine h hcode).Targets target :=
  targets _ _ [] rfl rfl (by decide) ⟨rfl, rfl⟩ rfl rfl

theorem contribution?_eq {e : Evaluation machine UInt8 1} {q : Pid} (hq : e.terminal? = some q)
    (ho : ((e.past q).code.any fun ev => ev.settles = some .opened) = true)
    (hr : e.redirect = ⟨Bytes.ofAscii "/f", .truncate⟩) : e.contribution? = some (.truncate,
      (e.notes.findSome? (Note.stdoutOf? q)).elim [] (outputOf · e.notes)) := by
  have hopens : e.opens = true := by rw [Evaluation.opens, hq, Option.any_some, ho]
  rw [Evaluation.contribution?, if_pos hopens, Evaluation.output, Evaluation.stdout?, hq, hr]
  rfl

/-- What the process that was left behind writes belongs to its line. -/
theorem contents_of_late_line :
    machine.OnlyReads ∧ ∃ e : Evaluation machine UInt8 1, e.line = late ∧
      Lines target (some [111]) [e] (some [120]) ∧ e.Unheld target ∧
      Concatenation (some [111]) [(.truncate, [120])] (some [120]) ∧ e.Accounts target := by
  obtain ⟨H, h, hcode, hopened⟩ := chronicle_late
  have h : Chronicle machine boot [.opened 2 (Bytes.ofAscii "/f") .truncate 2,
      .launched 2 (some 2), .wrote 2 [120]] _ (system [120] (opened [targetAt 1, sink])
        (table waited (writer 1) []) 4) :=
    (h.deed (.answered (rfl : left.process? 3 = some _) rfl rfl) :)
  let e := lateLine h hcode
  have hl : Lines target (some [111]) [e] (some [120]) := .cons (targets_late h hcode) (.nil _)
  have hu : e.Unheld target := by
    rintro pid x n i hx ⟨⟨fd, d, hd, rfl⟩, g, hg, hw, hr⟩ hi
    obtain ⟨-, rfl⟩ := process?_boot hx
    have hd : (fd, d) ∈ (streams 1 1).entries := (Table.get?_eq_some_iff _ _ _).1 hd
    simp only [streams, List.mem_cons, Prod.mk.injEq, List.not_mem_nil, or_false] at hd
    obtain rfl := Option.some.inj hi
    obtain ⟨-, rfl⟩ | ⟨-, rfl⟩ | ⟨-, rfl⟩ := hd <;> cases hg <;> cases hr
  have hterminal : e.terminal? = some 2 := by
    show (forked (H 1).code)[late.stages - 1]? = some 2
    rw [hcode]
    rfl
  have hcontribution : e.contribution? = some (.truncate, [120]) :=
    contribution?_eq hterminal hopened rfl
  obtain ⟨hcontents, haccounts⟩ := contents_of_redirect_target onlyReads hl (by simpa using hu)
  rw [List.filterMap_cons, hcontribution] at hcontents
  exact ⟨onlyReads, e, rfl, hl, hu, hcontents, haccounts e (List.mem_singleton_self e)⟩

/-- While the second line is evaluated the target holds what comes from the first. -/
theorem contents_with_writer_left :
    machine.OnlyReads ∧ ∃ e₁ e₂ : Evaluation machine UInt8 1, e₁.line = late ∧ e₂.line = cd ∧
      e₂.before = e₁.after ∧ Lines target (some [111]) [e₁, e₂] (some [120]) ∧
      ¬Concatenation (some [111]) ([e₁, e₂].filterMap Evaluation.contribution?) (some [120]) := by
  obtain ⟨H₁, h₁, hcode₁, hopened₁⟩ := chronicle_late
  obtain ⟨H₂, h₂, hcode₂, hopened₂⟩ := chronicle_cd
  have hbegins : Begins left 1 waited state cd fun x => done x.1 := {
    numbered := h₁.run.numbered begins_late.numbered
    sound := h₁.run.sound begins_late.numbered begins_late.sound
    shell := rfl
    code := rfl
    alone := by
      intro pid p hp hc
      obtain ⟨rfl, -⟩ | ⟨-, rfl⟩ := process?_left hp
      · rfl
      · cases hc }
  let e₁ := lateLine h₁ hcode₁
  let e₂ : Evaluation machine UInt8 1 := {
    state := state
    line := cd
    redirect := ⟨Bytes.ofAscii "/f", .truncate⟩
    redirects := rfl
    rest := _
    shell := waited
    before := left
    begins := hbegins
    notes := _
    past := H₂
    after := _
    chronicle := h₂
    within := .inr ⟨(1, { state with lastStatus := 1 }), _, [], (List.append_nil _).symm,
      hcode₂ ▸ .next rfl (.next rfl (.refl _)), nofun⟩ }
  refine ⟨onlyReads, e₁, e₂, rfl, rfl, rfl, ?_, fun h => ?_⟩
  · have ht₂ : e₂.Targets target :=
      targets _ _ [targetAt 0, sink] rfl rfl (by decide) ⟨rfl, rfl⟩ rfl rfl
    exact .cons (targets_late h₁ hcode₁) (.cons ht₂ (.nil _))
  · have hterminal₁ : e₁.terminal? = some 2 := by
      show (forked (H₁ 1).code)[late.stages - 1]? = some 2
      rw [hcode₁]
      rfl
    have hterminal₂ : e₂.terminal? = some 4 := by
      show (forked (H₂ 1).code)[cd.stages - 1]? = some 4
      rw [hcode₂]
      rfl
    have hcontribution₁ : e₁.contribution? = some (.truncate, []) :=
      contribution?_eq hterminal₁ hopened₁ rfl
    have hcontribution₂ : e₂.contribution? = some (.truncate, []) :=
      contribution?_eq hterminal₂ hopened₂ rfl
    have hboth : [e₁, e₂].filterMap Evaluation.contribution? =
        [(.truncate, []), (.truncate, [])] := by
      rw [List.filterMap_cons, hcontribution₁, List.filterMap_cons, hcontribution₂]
      rfl
    cases h.truncate [(.truncate, [])] [] [] hboth nofun

end LateWriter

end PipeShell
