import PipeShell.Proofs.Kernel.Custody
import PipeShell.Proofs.Kernel.Outputs
import PipeShell.Proofs.Shell.Outlet

/-! The course of an evaluation as the system takes it, up to the next line. While a line with a
redirection is evaluated, every process that runs code is the shell or one of its children, and does
what `Standing.permits` says. Main statements: nothing is done to the target before the last child
opens it (`Untouched.deed`), what is written to it after that comes from that child (`Taken.deed`),
for whose program it is the standard output (`Taken.stdout_deed`), and so it is all the time
(`Chronicle.untouched_or_taken`). -/
namespace PipeShell

open Program

variable {ι ρ : Type} {m : Machine ι} {s₀ s s' : System ι ρ} {H H' : Pid → Past} {sh pid q : Pid}
  {p₀ p : Process ι ρ} {st : State} {l : CommandLine} {r : Redirect}
  {rest : UInt8 × State → Program ρ} {f : FileName} {ns ms : List Note} {n i : Nat}

/-- Process `sh` is about to evaluate a line, and no other process runs code. -/
structure Begins (s₀ : System ι ρ) (sh : Pid) (p₀ : Process ι ρ) (st : State) (l : CommandLine)
    (rest : UInt8 × State → Program ρ) : Prop where
  numbered : s₀.Numbered
  sound : s₀.Sound
  shell : s₀.process? sh = some p₀
  code : p₀.control = .code (eval st l >>= rest)
  alone : ∀ pid p, s₀.process? pid = some p → p.control.isCode = true → pid = sh

def Syscall.transfers : Syscall → Bool
  | .read _ _ | .write _ _ => true
  | _ => false

/-- Whether a process has come no further than to its next line: it has not come to the end of the
evaluation, or since then it has only read and written. -/
def Past.Within (st : State) (l : CommandLine) (h : Past) : Prop :=
  (∃ q, (eval st l).Reaches h.code q) ∨ ∃ a es fs, h.code = es ++ fs ∧
    (eval st l).Returns es a ∧ ∀ e ∈ fs, e.call.transfers = true

theorem Past.Within.of_append {h h' : Past} {fs : List Event} (hw : h'.Within st l)
    (hh : h'.code = h.code ++ fs) : h.Within st l := by
  have hreaches : ∀ {es z}, (eval st l).Reaches (h.code ++ es) z → h.Within st l := by
    intro es z hz
    obtain ⟨z', hz', -⟩ := hz.of_append
    exact .inl ⟨z', hz'⟩
  obtain ⟨z, hz⟩ | ⟨a, es, gs, hcode, ha, hgs⟩ := hw
  · exact hreaches (hh ▸ hz)
  · obtain ⟨as, rfl, -⟩ | ⟨as, has, rfl⟩ := List.append_eq_append_iff.1 (hh.symm.trans hcode)
    · exact hreaches ha
    · exact .inr ⟨a, es, as, has, ha, fun e he => hgs e (List.mem_append_left _ he)⟩

/-- Whether programs open files for reading only. -/
def Machine.OnlyReads (m : Machine ι) : Prop :=
  ∀ i path mode, (m.move i).1 = .openFile path mode → mode = .read

section Processes

variable (hb : Begins s₀ sh p₀ st l rest) (h : Run m s₀ H s)
include hb h

theorem root_of_isCode (hp : s.process? pid = some p) (hc : p.control.isCode = true) :
    (H pid).root = sh ∧ (H pid).image = none := by
  obtain ⟨p₁, h₁, hc₁⟩ := h.isCode hb.numbered hp hc
  obtain ⟨p₂, -, hd⟩ := h.descends hb.numbered hp
  exact ⟨hb.alone _ p₁ h₁ hc₁, (hd.code hc).1⟩

theorem reaches_of_birth {z : Program ρ} (hw : (H sh).Within st l) (hroot : (H pid).root = sh)
    (hbirth : ¬Own (H pid).code) (hz : (eval st l >>= rest).Reaches (H pid).code z) :
    ∃ c again k, (eval st l).Reaches (H pid).code (call c again k) ∧
      z = call c again fun x => k x >>= rest := by
  obtain hcall | ⟨a, es₁, es₂, he', ha, -⟩ := reaches_bind_cases hz
  · exact hcall
  · exfalso
    -- it has been born, and with its birth the evaluation has not been over
    obtain ho | ⟨es, gs, he, ho⟩ := own_or_exists_birth (H pid).code
    · exact hbirth ho
    have hown : Own es₁ := by
      obtain ⟨n, st'⟩ := a
      exact own_of_returns_evalLine (returns_eval_iff.1 ha).1
    obtain ⟨as, rfl⟩ : ∃ as, es = es₁ ++ as := by
      obtain ⟨as, has, -⟩ | ⟨as, has, has'⟩ := List.append_eq_append_iff.1 (he'.symm.trans he)
      · exact ⟨as, has⟩
      · cases as with
        | nil => exact ⟨[], by simpa using has.symm⟩
        | cons e as =>
          obtain rfl := (List.cons.inj has').1
          rw [has, own_append, own_cons] at hown
          cases hown.2.1
    -- but it goes with a fork of the shell
    obtain ⟨child, fs, hsh⟩ := h.stems hb.numbered (hb.numbered sh p₀ hb.shell) pid _ gs hroot ho he
    rw [List.append_assoc] at hsh
    obtain ⟨z, hz⟩ | ⟨a', es', fs', hcode, ha', hfs'⟩ := hw
    · rw [hsh, ha.append_iff, reaches_done_iff] at hz
      simp at hz
    · obtain ⟨bs, rfl, hbs⟩ | ⟨bs, rfl, hbs⟩ := List.append_eq_append_iff.1 (hsh.symm.trans hcode)
      · obtain ⟨rfl, -⟩ := reaches_done_iff.1 (ha.append_iff.1 ha')
        obtain rfl : _ = fs' := hbs
        cases hfs' ⟨.fork, .ok (.parent child)⟩ (by simp)
      · obtain ⟨rfl, -⟩ := reaches_done_iff.1 (ha'.append_iff.1 ha)
        obtain rfl : fs' = _ := hbs
        cases hfs' ⟨.fork, .ok (.parent child)⟩ (by simp)

theorem reaches_of_child {c : Syscall} {k : c.Reply → Control ι ρ}
    (hw : (H sh).Within st l) (hp : s.process? pid = some p) (hn : p.next? m = some ⟨c, k⟩)
    (hc : p.control.isCode = true) (hpid : pid ≠ sh) :
    ∃ again k', (eval st l).Reaches (H pid).code (call c again k') := by
  obtain ⟨hroot, himage⟩ := root_of_isCode hb h hp hc
  obtain ⟨p₁, h₁, hd⟩ := h.descends hb.numbered hp
  obtain ⟨again, k', hcode, -⟩ | ⟨j, -, hj, -⟩ := Process.next?_eq_some hn
  · obtain ⟨hr, -⟩ := (h.executes hb.numbered hp (hroot ▸ hb.shell) hb.code).code _ hcode
    have hbirth : ¬Own (H pid).code := fun ho => by
      have hown : Own (H pid).events := by
        rw [Past.events, himage]
        simpa using ho
      exact hpid ((hd.own hown).trans hroot)
    obtain ⟨c', again', k'', hr', hq⟩ := reaches_of_birth hb h hw hroot hbirth hr
    cases hq
    exact ⟨again, k'', hr'⟩
  · rw [hj] at hc
    cases hc

theorem own_shell : Own (H sh).code :=
  (own_append.1 (h.native.2 sh (hb.numbered sh p₀ hb.shell)).2).1

theorem permits_of_record {c : Syscall} {k : c.Reply → Control ι ρ} {x : c.Reply}
    (hr : l.redirect = some r)
    (hw : (Function.update H pid ((H pid).record p ⟨c, x⟩) sh).Within st l)
    (hp : s.process? pid = some p) (hn : p.next? m = some ⟨c, k⟩)
    (hc : p.control.isCode = true) : (standing (H pid).code).permits st l r c := by
  by_cases hpid : pid = sh
  · subst pid
    rw [Function.update_self, Past.record, if_pos hc] at hw
    have hreaches : ∀ {z}, (eval st l).Reaches ((H sh).code ++ [⟨c, x⟩]) z →
        (standing (H sh).code).permits st l r c := fun hz => (heeds_eval hr).permits_of_append hz
    obtain ⟨z, hz⟩ | ⟨a, es, fs, hcode, ha, hfs⟩ := hw
    · exact hreaches hz
    · obtain rfl | ⟨fs', e, rfl⟩ := fs.eq_nil_or_concat
      · rw [List.append_nil] at hcode
        exact hreaches (hcode ▸ ha)
      · -- between two lines
        rw [List.concat_eq_append, ← List.append_assoc] at hcode
        obtain rfl : ⟨c, x⟩ = e := (List.cons.inj (List.append_inj' hcode rfl).2).1
        have htransfers := hfs ⟨c, x⟩ (by simp)
        rw [standing_of_own (own_shell hb h)]
        cases c <;> trivial
  · rw [Function.update_of_ne (Ne.symm hpid)] at hw
    obtain ⟨again, k', hreaches⟩ := reaches_of_child hb h hw hp hn hc hpid
    exact permits_of_reaches_eval hr hreaches

theorem forked_of_standing {z : Program (UInt8 × State)} {i : Nat}
    {a : TargetState} {v : Bool} (hr : l.redirect = some r)
    (hroot : (H pid).root = sh) (himage : (H pid).image = none)
    (hz : (eval st l).Reaches (H pid).code z) (hs : standing (H pid).code = .child i a v) :
    (forked (H sh).code)[i]? = some pid := by
  obtain ⟨fs, gs, hcode, ho, rfl⟩ := eq_of_standing hs
  have hchild : (H pid).Child fs :=
    ⟨ho, gs, hcode, own_of_birth hr ho (hcode ▸ hz), by simp [himage]⟩
  obtain ⟨gs', hsh⟩ := h.parents hb.numbered (hb.numbered sh p₀ hb.shell) pid fs hroot hchild
  rw [hsh]
  exact forked_append_fork

theorem eq_of_standing_unmoved {z : Program (UInt8 × State)} {i : Nat}
    {a : TargetState} (hr : l.redirect = some r)
    (hp : s.process? pid = some p) (hc : p.control.isCode = true)
    (hz : (eval st l).Reaches (H pid).code z) (hs : standing (H pid).code = .child i a false) :
    p.credentials = p₀.credentials ∧ p.directory = p₀.directory := by
  obtain ⟨hroot, himage⟩ := root_of_isCode hb h hp hc
  obtain ⟨p₁, h₁, hd⟩ := h.descends hb.numbered hp
  rw [hroot, hb.shell] at h₁
  obtain rfl := Option.some.inj h₁
  refine ⟨h.credentials hb.numbered hp (hroot ▸ hb.shell), hd.directory.resolve_right ?_⟩
  rintro ⟨path, hm⟩
  rw [Past.events, himage] at hm
  exact not_chdir_of_standing hr hz hs path (by simpa using hm)

theorem open_cases {path : Bytes} {mode : OpenMode}
    {k : (Syscall.openFile path mode).Reply → Control ι ρ} {x : Except Errno Fd}
    (hm : m.OnlyReads) (hr : l.redirect = some r)
    (hw : (Function.update H pid ((H pid).record p ⟨.openFile path mode, x⟩) sh).Within st l)
    (hp : s.process? pid = some p) (hn : p.next? m = some ⟨.openFile path mode, k⟩) :
    mode = .read ∨ p.credentials = p₀.credentials ∧ p.directory = p₀.directory ∧
      (mode = .write ∧ path = st.nullSink ∨ ∃ md, mode = .create md ∧ r = ⟨path, md⟩ ∧
        p.control.isCode = true ∧ standing (H pid).code = .child (l.stages - 1) .due false ∧
        (forked (H sh).code)[l.stages - 1]? = some pid) := by
  obtain ⟨again, k', hcode, -⟩ | ⟨j, j', hj, -⟩ := Process.next?_eq_some hn
  · have hc : p.control.isCode = true := by rw [hcode]; rfl
    have hpermits := permits_of_record hb h hr hw hp hn hc
    cases hs : standing (H pid).code with
    | shell n =>
      rw [hs] at hpermits
      exact hpermits.elim
    | child i a v =>
      rw [hs] at hpermits
      have hpid : pid ≠ sh := by
        rintro rfl
        rw [standing_of_own (own_shell hb h)] at hs
        cases hs
      rw [Function.update_of_ne hpid.symm] at hw
      obtain ⟨again', k'', hreaches⟩ := reaches_of_child hb h hw hp hn hc hpid
      cases mode with
      | read => exact .inl rfl
      | write =>
        obtain ⟨rfl, rfl⟩ := hpermits
        obtain ⟨hcred, hdir⟩ := eq_of_standing_unmoved hb h hr hp hc hreaches hs
        exact .inr ⟨hcred, hdir, .inl ⟨rfl, rfl⟩⟩
      | create md =>
        obtain ⟨rfl, hi, rfl, rfl⟩ := hpermits
        obtain rfl : i = l.stages - 1 := by omega
        obtain ⟨hcred, hdir⟩ := eq_of_standing_unmoved hb h hr hp hc hreaches hs
        obtain ⟨hroot, himage⟩ := root_of_isCode hb h hp hc
        exact .inr ⟨hcred, hdir, .inr ⟨md, rfl, rfl, hc, rfl,
          forked_of_standing hb h hr hroot himage hreaches hs⟩⟩
  · unfold Process.next? at hn
    rw [hj] at hn
    split at hn
    · cases hn
    · exact .inl (hm j path mode (congrArg Sigma.fst (Option.some.inj hn)))

end Processes

/-- Whether a process with the past `g` comes from a process with the past `h` that has become a
program. -/
def Past.Heir (h g : Past) : Prop := g.code = h.code ∧ h.image ≠ none ∧ g.image ≠ none

theorem Move.openers (hm : Move m H s H' s') : ∀ pid y n, s'.process? pid = some y →
    y.HasOpen n → (∃ q x, s.process? q = some x ∧ x.HasOpen n) ∨ s.openFiles.get? n = none := by
  intro pid y n hy hn
  obtain ⟨x, hx, hxn⟩ | ⟨-, q, x, k, hx, -, hxn, -⟩ | habove := hm.hasOpen hy hn
  · exact .inl ⟨pid, x, hx, hxn⟩
  · exact .inl ⟨q, x, hx, hxn⟩
  · exact .inr (Table.get?_eq_none_of_above_le habove)

theorem Move.goes_on (hm : Move m H s H' s') (hq : q ≠ s.nextPid) :
    ∃ fs, (H' q).code = (H q).code ++ fs ∧ ((H' q).image = none → (H q).image = none) := by
  obtain ⟨G, -, hbetween⟩ := hm.restart
  exact ⟨(G q).code, hbetween q hq⟩

section Steps

variable (hb : Begins s₀ sh p₀ st l rest) (h : Chronicle m s₀ ns H s)

/-- The file has not been opened yet. -/
structure Untouched (s₀ : System ι ρ) (p₀ : Process ι ρ) (st : State) (r : Redirect) (f : FileName)
    (ns : List Note) (s : System ι ρ) : Prop where
  guards : s.Guards f none
  target : s.files.LeadsTo p₀.credentials p₀.directory r.target f
  sink : s.files.LeadsElsewhere p₀.credentials p₀.directory st.nullSink f
  text : s.files.text? f = s₀.files.text? f
  notes : ns.filterMap Note.opening? = []

def RedirectMode.base (mode : RedirectMode) (old : Option Bytes) : Bytes :=
  if mode = .truncate then [] else old.getD []

/-- The last child, process `q`, has opened the file, which has number `i`, as open file `n`. -/
structure Taken (s₀ : System ι ρ) (p₀ : Process ι ρ) (st : State) (l : CommandLine) (r : Redirect)
    (f : FileName) (sh q : Pid) (n i : Nat) (ns : List Note) (H : Pid → Past) (s : System ι ρ) :
    Prop where
  guards : s.Guards f (some n)
  sink : s.files.LeadsElsewhere p₀.credentials p₀.directory st.nullSink f
  fills : s.Fills f r.mode n i (r.mode.base (s₀.files.text? f) ++ outputOf n ns)
  notes : ns.filterMap Note.opening? = [(q, r, n)]
  terminal : (forked (H sh).code)[l.stages - 1]? = some q
  opened : ∃ v, standing (H q).code = .child (l.stages - 1) .opened v
  holders : ∀ pid x, s.process? pid = some x → x.HasOpen n → pid = q ∨ (H q).Heir (H pid)
  silent : (H q).image = none → outputOf n ns = []
  outputs : ∀ x, s.process? q = some x → x.control.isCode = true → x.Outputs (layout (H q).code) n
  launched : (H q).image ≠ none → ∃ o, .launched q o ∈ ns
  stdout : ∀ o, .launched q o ∈ ns →
    o = some n ∨ ¬p₀.IsOpen Fd.stdout ∧ o = none ∧ Abandoned n ns s

theorem Taken.lt_above (ht : Taken s₀ p₀ st l r f sh q n i ns H s) : n < s.openFiles.above := by
  obtain ⟨position, hget, -⟩ := ht.fills.openFile
  exact Table.lt_above_of_get?_eq_some hget

include hb h in
theorem ne_nextPid : sh ≠ s.nextPid :=
  Nat.ne_of_lt (Nat.lt_of_lt_of_le (hb.numbered sh p₀ hb.shell) h.run.native.1)

include hb h in
theorem child_of_forked (hq : (forked (H sh).code)[i]? = some q) :
    q ≠ s.nextPid ∧ q ≠ sh ∧ (H q).root = sh ∧ ∃ a v, standing (H q).code = .child i a v := by
  have hsh := hb.numbered sh p₀ hb.shell
  obtain ⟨fs, gs, hcode, rfl⟩ := eq_of_forked_getElem? hq
  obtain ⟨hlt, hroot, gs', hpre⟩ := h.run.children hsh fs q gs hcode
  have ho := own_shell hb h.run
  have hfs : Own fs := (own_append.1 (hcode ▸ ho)).1
  have hbirth : (H q).code = fs ++ birth :: gs' := by simpa using hpre.symm
  refine ⟨Nat.ne_of_lt hlt, ?_, hroot, hbirth ▸ standing_of_birth hfs gs'⟩
  rintro rfl
  rw [hbirth] at ho
  cases (own_cons.1 (own_append.1 ho).2).1

theorem Begins.within (hb : Begins s₀ sh p₀ st l rest) (h : Chronicle m s₀ ns H s)
    (hm : Move m H s H' s') (hw : (H' sh).Within st l) : (H sh).Within st l := by
  obtain ⟨fs, hfs, -⟩ := hm.goes_on (ne_nextPid hb h)
  exact hw.of_append hfs

theorem forked_of_prefix {es es' fs : List Event} (he : es' = es ++ fs)
    (hq : (forked es)[i]? = some q) : (forked es')[i]? = some q := by
  rw [he, forked_append, List.getElem?_append_left (List.getElem?_eq_some_iff.1 hq).1]
  exact hq

theorem opened_of_prefix {es es' fs : List Event} (he : es' = es ++ fs)
    (hs : ∃ v, standing es = .child i .opened v) : ∃ v, standing es' = .child i .opened v := by
  obtain ⟨v, hs⟩ := hs
  obtain ⟨a, v', hfs, ha, -⟩ := foldl_next_child i .opened v fs
  obtain rfl := ha nofun
  exact ⟨v', by rw [he, standing_append, hs, hfs]⟩

theorem spares_of_not_create {c : Syscall} {k : c.Reply → Control ι ρ} {x : c.Reply}
    (hb : Begins s₀ sh p₀ st l rest) (h : Chronicle m s₀ ns H s) (hm : m.OnlyReads)
    (hr : l.redirect = some r)
    (hsink : s.files.LeadsElsewhere p₀.credentials p₀.directory st.nullSink f)
    (hw : (Function.update H pid ((H pid).record p ⟨c, x⟩) sh).Within st l)
    (hp : s.process? pid = some p) (hn : p.next? m = some ⟨c, k⟩)
    (he : ¬∃ path md fd, (⟨c, x⟩ : Event) = ⟨.openFile path (.create md), .ok fd⟩) :
    s.Spares p f ⟨c, x⟩ := by
  intro path mode fd heq
  cases heq
  obtain hmode | ⟨hcred, hdir, ⟨hmode, hpath⟩ | ⟨md, rfl, -⟩⟩ := open_cases hb h.run hm hr hw hp hn
  · exact .inl hmode
  · exact .inr ⟨hmode, by rw [hcred, hdir, hpath]; exact hsink⟩
  · exact absurd ⟨path, md, fd, rfl⟩ he

theorem outputs_of_opened {path : Bytes} {md : RedirectMode} {fd : Fd} {v : Bool} {y : Process ι ρ}
    {k : (Syscall.openFile path (.create md)).Reply → Control ι ρ}
    (hb : Begins s₀ sh p₀ st l rest) (h : Chronicle m s₀ ns H s) (hr : l.redirect = some r)
    (hp : s.process? pid = some p) (hn : p.next? m = some ⟨.openFile path (.create md), k⟩)
    (ha : s.answer pid p (.openFile path (.create md)) = some (.ok fd, s'))
    (hw : (Function.update H pid ((H pid).record p ⟨.openFile path (.create md), .ok fd⟩) sh).Within
      st l)
    (hc : p.control.isCode = true) (hs : standing (H pid).code = .child i .due v)
    (hy : (s'.resume pid (k (.ok fd))).process? pid = some y) (hcy : y.control.isCode = true) :
    y.Outputs (layout ((H pid).code ++ [⟨.openFile path (.create md), .ok fd⟩]))
      s.openFiles.above := by
  have hmove : Move m H s _ (s'.resume pid (k (.ok fd))) := .answered hp hn ha
  have hnumbered := h.run.numbered hb.numbered
  obtain ⟨G, x, -, hx, -, hcode, hfits⟩ :=
    hmove.fits_of_isCode hnumbered (Nat.ne_of_lt (hnumbered pid p hp)) hy hcy
  rw [Function.update_self, Past.record, if_pos hc] at hcode
  rw [← List.append_cancel_left hcode] at hfits
  obtain ⟨i, -, hset⟩ := System.opened_of_answer ha
  have hcovers := (h.run.sound hb.numbered hb.sound).covers pid x hx
  have hopenFiles : (s'.resume pid (k (.ok fd))).openFiles = _ :=
    (System.openFiles_modifyProcess _ _ _).trans hset
  rw [layout, Layout.after_append]
  refine hfits.outputs hcovers hopenFiles fun fd' slot hslot => Bool.eq_false_iff.2 fun hout => ?_
  -- nothing has been opened before
  obtain ⟨path', mode, b, rfl⟩ := Slot.exists_of_isOutput hout
  obtain ⟨k', hmem⟩ := Layout.opened_of_layout hslot
  have hpid : pid ≠ sh := by
    rintro rfl
    rw [standing_of_own (own_shell hb h.run)] at hs
    cases hs
  obtain ⟨again, k'', hreaches⟩ :=
    reaches_of_child hb h.run (hb.within h hmove hw) hp hn hc hpid
  cases settles_of_mem hr hreaches hmem rfl (by simp) hs

theorem Untouched.opened {path : Bytes} {md : RedirectMode} {fd : Fd}
    {k : (Syscall.openFile path (.create md)).Reply → Control ι ρ}
    (hu : Untouched s₀ p₀ st r f ns s) (hb : Begins s₀ sh p₀ st l rest)
    (h : Chronicle m s₀ ns H s) (hm : m.OnlyReads) (hr : l.redirect = some r)
    (hp : s.process? pid = some p) (hn : p.next? m = some ⟨.openFile path (.create md), k⟩)
    (ha : s.answer pid p (.openFile path (.create md)) = some (.ok fd, s'))
    (hw : (Function.update H pid ((H pid).record p ⟨.openFile path (.create md), .ok fd⟩) sh).Within
      st l) :
    ∃ i, Taken s₀ p₀ st l r f sh pid s.openFiles.above i
      (ns ++ s.notes pid p ⟨.openFile path (.create md), .ok fd⟩)
      (Function.update H pid ((H pid).record p ⟨.openFile path (.create md), .ok fd⟩))
      (s'.resume pid (k (.ok fd))) := by
  have hmove : Move m H s _ (s'.resume pid (k (.ok fd))) := .answered hp hn ha
  obtain hmode | ⟨hcred, hdir, ⟨hmode, -⟩ | ⟨md', hmode, rfl, hc, hs, hq⟩⟩ :=
    open_cases hb h.run hm hr hw hp hn
  · cases hmode
  · cases hmode
  obtain rfl : md = md' := by injection hmode
  obtain ⟨i, hi, hset⟩ := System.opened_of_answer ha
  have htarget : s.files.LeadsTo p.credentials p.directory path f := by
    rw [hcred, hdir]
    exact hu.target
  have hfiles : (s'.resume pid (k (.ok fd))).files = s'.files := System.files_modifyProcess _ _ _
  have hopened : s.files.OpenedFor (s'.resume pid (k (.ok fd))).files f md i :=
    hfiles ▸ FileTree.openedFor_of_openAs hi htarget hu.guards.regular
  have hopenFiles : (s'.resume pid (k (.ok fd))).openFiles =
      s.openFiles.set s.openFiles.above ((OpenMode.create md).openFile i) :=
    (System.openFiles_modifyProcess _ _ _).trans hset
  have hempty : outputOf s.openFiles.above
      (ns ++ s.notes pid p ⟨.openFile path (.create md), .ok fd⟩) = [] := by
    rw [outputOf_append, h.outputOf_above]
    rfl
  have hcode : Function.update H pid ((H pid).record p ⟨.openFile path (.create md), .ok fd⟩) pid =
      { H pid with code := (H pid).code ++ [⟨.openFile path (.create md), .ok fd⟩] } := by
    rw [Function.update_self, Past.record, if_pos hc]
  obtain ⟨fs, hsh, -⟩ := hmove.goes_on (ne_nextPid hb h)
  have himage := (root_of_isCode hb h.run hp hc).2
  refine ⟨i, ?_⟩
  exact {
    guards := System.guards_of_openedFor hopened hu.guards hopenFiles hmove.openers
    sink := hopened.elsewhere _ _ _ hu.sink
    fills := by
      have hfills := System.fills_of_openedFor hopened hopenFiles
      rw [hu.text] at hfills
      rw [hempty, List.append_nil]
      exact hfills
    notes := by
      rw [List.filterMap_append, hu.notes]
      rfl
    terminal := forked_of_prefix hsh hq
    opened := ⟨false, by rw [hcode, standing_concat, hs]; rfl⟩
    holders := by
      intro q y hy hyn
      obtain ⟨x, hx, hxn⟩ | ⟨hqp, -⟩ := (System.answer_effect ha hp).hasOpen hp hy hyn
      · exact absurd hxn
          ((h.run.sound hb.numbered hb.sound).covers q x hx : s.Covers x.descriptors).not_hasOpen
      · exact .inl hqp
    silent := fun _ => hempty
    outputs := fun y hy hc' => by
      rw [hcode]
      exact outputs_of_opened hb h hr hp hn ha hw hc hs hy hc'
    launched := by
      rw [hcode]
      exact fun hi => absurd himage hi
    stdout := by
      intro o hnote
      obtain hnote | hnote := List.mem_append.1 hnote
      · exact absurd himage (h.image_of_launched hb.numbered hnote).2
      · exact absurd hnote System.launched_notMem_notes }

theorem Untouched.deed (hu : Untouched s₀ p₀ st r f ns s) (hb : Begins s₀ sh p₀ st l rest)
    (h : Chronicle m s₀ ns H s) (hm : m.OnlyReads) (hr : l.redirect = some r)
    (hd : Deed m H s ms H' s') (hw : (H' sh).Within st l) :
    Untouched s₀ p₀ st r f (ns ++ ms) s' ∨
      ∃ q n i, Taken s₀ p₀ st l r f sh q n i (ns ++ ms) H' s' := by
  have hkeep : System.Mild s s' f → s'.files.text? f = s.files.text? f →
      (∀ note ∈ ms, note.opening? = none) → Untouched s₀ p₀ st r f (ns ++ ms) s' := by
    intro hmild htext hnotes
    refine ⟨hu.guards.mild hmild hd.move.openers, hmild.unmoved.leadsTo _ _ _ hu.target,
      hmild.unmoved.elsewhere _ _ _ hu.sink, htext.trans hu.text, ?_⟩
    rw [List.filterMap_append, hu.notes, List.filterMap_eq_nil_iff.2 hnotes, List.nil_append]
  cases hd with
  | other hmove hf ho =>
    exact .inl (hkeep ((System.Quiet.of_eq hf ho).mild f) (by rw [hf]) opening?_of_launches)
  | @answered s' pid p c k x hp hn ha =>
    by_cases he : ∃ path md fd, (⟨c, x⟩ : Event) = ⟨.openFile path (.create md), .ok fd⟩
    · obtain ⟨path, md, fd, he⟩ := he
      cases he
      obtain ⟨i, ht⟩ := hu.opened hb h hm hr hp hn ha hw
      exact .inr ⟨pid, _, i, ht⟩
    · have hspares := spares_of_not_create hb h hm hr hu.sink hw hp hn he
      have hchange : System.Change s (s'.resume pid (k x)) pid p ⟨c, x⟩ (s.notes pid p ⟨c, x⟩) :=
        (System.change_of_answer ha).of_eq (System.files_modifyProcess _ _ _)
          (System.openFiles_modifyProcess _ _ _)
      exact .inl (hkeep (hchange.mild hspares) (System.text?_of_change hchange hp hu.guards hspares)
        (System.opening?_of_change hchange hspares))

theorem Taken.holders_move (ht : Taken s₀ p₀ st l r f sh q n i ns H s)
    (hb : Begins s₀ sh p₀ st l rest) (h : Chronicle m s₀ ns H s) (hr : l.redirect = some r)
    (hm : Move m H s H' s') (hw : (H' sh).Within st l) {y : Process ι ρ}
    (hy : s'.process? pid = some y) (hn : y.HasOpen n) : pid = q ∨ (H' q).Heir (H' pid) := by
  obtain ⟨hqnew, hqsh, hroot, -⟩ := child_of_forked hb h ht.terminal
  have hnone : ∀ {pid}, (H pid).image ≠ none →
      ∀ x, s.process? pid = some x → x.control.isCode = false := by
    intro pid hi x hx
    obtain ⟨p₁, -, hd⟩ := h.run.descends hb.numbered hx
    exact Bool.eq_false_iff.2 fun hc => hi (hd.code hc).1
  obtain ⟨x, hx, hxn⟩ | ⟨rfl, q', p, k, hp, hnext, hpn, hpast⟩ | habove := hm.hasOpen hy hn
  · -- what was no code remains none
    refine (ht.holders pid x hx hxn).imp_right ?_
    rintro ⟨hcode, hq, hpid⟩
    have hnew : pid ≠ s.nextPid := Nat.ne_of_lt (h.run.numbered hb.numbered pid x hx)
    obtain ⟨hcode₁, hq'⟩ := hm.code_of_image hqnew hq (hnone hq)
    obtain ⟨hcode₂, hpid'⟩ := hm.code_of_image hnew hpid (hnone hpid)
    exact ⟨by rw [hcode₁, hcode₂, hcode], hq', hpid'⟩
  · -- a new process: the child forks nothing unless it has become a program
    have hparent : (H q').code = (H q).code ∧ (H q).image ≠ none ∧ p.control.isCode = false := by
      obtain rfl | ⟨hcode, hq, hpid⟩ := ht.holders q' p hp hpn
      · cases hc : p.control.isCode with
        | true =>
          obtain ⟨again, k', hreaches⟩ :=
            reaches_of_child hb h.run (hb.within h hm hw) hp hnext hc hqsh
          have hpermits := permits_of_reaches_eval hr hreaches
          obtain ⟨v, hs⟩ := ht.opened
          rw [hs] at hpermits
          exact hpermits.elim
        | false =>
          obtain ⟨again, k', hcode, -⟩ | ⟨j, j', hj, -⟩ := Process.next?_eq_some hnext
          · rw [hcode] at hc
            cases hc
          · have hx := h.run.executes hb.numbered hp (hroot ▸ hb.shell) hb.code
            exact ⟨rfl, hx.image (by rw [hj]; rfl), rfl⟩
      · exact ⟨hcode, hq, hnone hpid p hp⟩
    obtain ⟨hcode, hq, hc⟩ := hparent
    obtain ⟨hcode', hq'⟩ := hm.code_of_image hqnew hq (hnone hq)
    refine .inr ⟨?_, hq', ?_⟩
    · rw [hpast, Past.record, hc, hcode', ← hcode]
      rfl
    · rw [hpast, Past.record, hc]
      exact Option.some_ne_none _
  · exact absurd ht.lt_above (Nat.not_lt_of_le habove)

theorem Taken.not_wrote {c : Syscall} {k : c.Reply → Control ι ρ} {x : c.Reply} {data : Bytes}
    (ht : Taken s₀ p₀ st l r f sh q n i ns H s) (hb : Begins s₀ sh p₀ st l rest)
    (h : Chronicle m s₀ ns H s) (hr : l.redirect = some r)
    (hw : (H sh).Within st l) (hp : s.process? pid = some p) (hn : p.next? m = some ⟨c, k⟩)
    (himage : (H q).image = none) : .wrote n data ∉ s.notes pid p ⟨c, x⟩ := by
  intro hmem
  obtain ⟨fd, d, g, rfl, ho⟩ := System.exists_write_of_notes hmem
  obtain ⟨d', hd, hdn, -⟩ := (System.openFile?_eq_some_iff s p fd n g).1 ho
  obtain rfl | ⟨-, hq, -⟩ := ht.holders pid p hp ⟨fd, d', hd, hdn⟩
  · obtain ⟨-, hsh, hroot, -⟩ := child_of_forked hb h ht.terminal
    have hx := h.run.executes hb.numbered hp (hroot ▸ hb.shell) hb.code
    obtain ⟨again, k', hcode, -⟩ | ⟨j, j', hj, -⟩ := Process.next?_eq_some hn
    · obtain ⟨again', k'', hreaches⟩ :=
        reaches_of_child hb h.run hw hp hn (by rw [hcode]; rfl) hsh
      have hpermits := permits_of_reaches_eval hr hreaches
      obtain ⟨v, hs⟩ := ht.opened
      rw [hs] at hpermits
      exact hpermits
    · exact hx.image (by rw [hj]; rfl) himage
  · exact hq himage

theorem Taken.spares {c : Syscall} {k : c.Reply → Control ι ρ} {x : c.Reply}
    (ht : Taken s₀ p₀ st l r f sh q n i ns H s) (hb : Begins s₀ sh p₀ st l rest)
    (h : Chronicle m s₀ ns H s) (hm : m.OnlyReads) (hr : l.redirect = some r)
    (hw : (Function.update H pid ((H pid).record p ⟨c, x⟩) sh).Within st l)
    (hp : s.process? pid = some p) (hn : p.next? m = some ⟨c, k⟩) : s.Spares p f ⟨c, x⟩ := by
  refine spares_of_not_create hb h hm hr ht.sink hw hp hn ?_
  rintro ⟨path, md, fd, he⟩
  cases he
  obtain hmode | ⟨-, -, ⟨hmode, -⟩ | ⟨md', -, -, -, hdue, hpid⟩⟩ :=
    open_cases hb h.run hm hr hw hp hn
  · cases hmode
  · cases hmode
  · obtain rfl := Option.some.inj (ht.terminal.symm.trans hpid)
    obtain ⟨v, hopened⟩ := ht.opened
    rw [hdue] at hopened
    cases hopened

theorem Taken.outputs_move {y : Process ι ρ} (ht : Taken s₀ p₀ st l r f sh q n i ns H s)
    (hb : Begins s₀ sh p₀ st l rest) (h : Chronicle m s₀ ns H s) (hr : l.redirect = some r)
    (hm : Move m H s H' s') (hw : (H sh).Within st l) (hy : s'.process? q = some y)
    (hc : y.control.isCode = true) : y.Outputs (layout (H' q).code) n := by
  obtain ⟨hqnew, hqsh, -, -⟩ := child_of_forked hb h ht.terminal
  obtain ⟨G, x, hG, hx, hcx, hcode, hfits⟩ :=
    hm.fits_of_isCode (h.run.numbered hb.numbered) hqnew hy hc
  rw [hcode, layout, Layout.after_append]
  refine (ht.outputs x hx hcx).fits hfits ht.lt_above fun path mode fd hmem => ?_
  obtain ⟨x', k, hx', hn, -⟩ := hG.reply_of_code hqnew hmem
  obtain rfl := Option.some.inj (hx.symm.trans hx')
  obtain ⟨again, k', hreaches⟩ := reaches_of_child hb h.run hw hx hn hcx hqsh
  have hpermits := permits_of_reaches_eval hr hreaches
  obtain ⟨v, hs⟩ := ht.opened
  rw [hs] at hpermits
  obtain ⟨-, -, hdue, -⟩ := hpermits
  cases hdue

/-- When the child becomes a program, its open file is the standard output of the program, or has
been closed where there is no such descriptor. -/
theorem Taken.stdout_deed {o : Option Nat} (ht : Taken s₀ p₀ st l r f sh q n i ns H s)
    (hb : Begins s₀ sh p₀ st l rest) (h : Chronicle m s₀ ns H s) (hr : l.redirect = some r)
    (hd : Deed m H s ms H' s') (hw : (H sh).Within st l) (hm : .launched q o ∈ ms) :
    o = some n ∨ ¬p₀.IsOpen Fd.stdout ∧ o = none ∧ Abandoned n ns s := by
  cases hd with
  | answered => exact absurd hm System.launched_notMem_notes
  | other hmove =>
    obtain ⟨q', x, y, hx, hc, hy, hi, heq⟩ := System.mem_launches.1 hm
    cases heq
    obtain ⟨-, hqsh, hroot, -⟩ := child_of_forked hb h ht.terminal
    obtain ⟨path, argv, k, hn, hdescriptors⟩ :=
      hmove.exec_of_image (h.run.numbered hb.numbered) hx hc hy hi
    obtain ⟨again, k', hreaches⟩ := reaches_of_child hb h.run hw hx hn hc hqsh
    obtain ⟨p₁, h₁, hdescends⟩ := h.run.descends hb.numbered hx
    rw [hroot, hb.shell] at h₁
    obtain rfl := Option.some.inj h₁
    obtain ⟨himage, hfits, hfresh⟩ := hdescends.code hc
    obtain ⟨v, hs⟩ := ht.opened
    obtain ⟨e, he, hsettles⟩ := exists_settles_of_standing hs nofun
    have htidy := tidy_of_reaches_eval hr hreaches he hsettles
    have houtputs := ht.outputs x hx hc
    rw [hdescriptors, Table.get?_filter]
    by_cases hslot : ∃ slot, layout (H q).code Fd.stdout = some slot ∧ slot.isOutput = true
    · obtain ⟨slot, hL, hout⟩ := hslot
      have hduplicated : slot.duplicated = true := by simpa [hout] using htidy _ _ hL
      rw [houtputs.refers _ _ hL hout, hduplicated]
      exact .inl rfl
    · have hclosed : ¬p₀.IsOpen Fd.stdout := fun ho =>
        hslot ⟨_, stdout_of_reaches_eval hr hreaches he hsettles hfresh ho, rfl⟩
      have hunheld : ¬x.HasOpen n := by
        rintro ⟨fd, d, hd, hdn⟩
        obtain ⟨slot, hL, hout⟩ := houtputs.only fd d hd hdn
        have hfd : fd = Fd.stdout ∧ slot.duplicated = true := by simpa [hout] using htidy _ _ hL
        exact hslot ⟨slot, hfd.1 ▸ hL, hout⟩
      refine .inr ⟨hclosed, ?_, ht.silent himage, fun pid z hz hzn => ?_⟩
      · rw [hfits.filter_eq_none hclosed fun slot hL => ?_]
        · rfl
        · rw [← Bool.not_eq_true]
          intro hduplicated
          exact hslot ⟨slot, hL, by simpa [hduplicated] using htidy _ _ hL⟩
      · obtain rfl | ⟨-, hq, -⟩ := ht.holders pid z hz hzn
        · obtain rfl := Option.some.inj (hx.symm.trans hz)
          exact hunheld hzn
        · exact hq himage

theorem Taken.deed (ht : Taken s₀ p₀ st l r f sh q n i ns H s) (hb : Begins s₀ sh p₀ st l rest)
    (h : Chronicle m s₀ ns H s) (hm : m.OnlyReads) (hr : l.redirect = some r)
    (hd : Deed m H s ms H' s') (hw : (H' sh).Within st l) :
    Taken s₀ p₀ st l r f sh q n i (ns ++ ms) H' s' := by
  obtain ⟨hqnew, hqsh, hroot, -⟩ := child_of_forked hb h ht.terminal
  obtain ⟨fs, hsh, -⟩ := hd.move.goes_on (ne_nextPid hb h)
  obtain ⟨gs, hq, himage⟩ := hd.move.goes_on hqnew
  have hw₀ := hb.within h hd.move hw
  have hcode : (H q).image = none → ∀ x, s.process? q = some x → x.control.isImage = false :=
    fun hnone x hx => Bool.eq_false_iff.2 fun hi =>
      (h.run.executes hb.numbered hx (hroot ▸ hb.shell) hb.code).image hi hnone
  have hkeep : System.Mild s s' f →
      s'.Fills f r.mode n i (r.mode.base (s₀.files.text? f) ++ outputOf n ns ++ outputOf n ms) →
      (∀ note ∈ ms, note.opening? = none) →
      ((H q).image = none → outputOf n ms = []) →
      Taken s₀ p₀ st l r f sh q n i (ns ++ ms) H' s' := by
    intro hmild hfills hnotes hsilent
    exact {
      guards := ht.guards.mild hmild hd.move.openers
      sink := hmild.unmoved.elsewhere _ _ _ ht.sink
      fills := by rwa [outputOf_append, ← List.append_assoc]
      notes := by
        rw [List.filterMap_append, ht.notes, List.filterMap_eq_nil_iff.2 hnotes, List.append_nil]
      terminal := forked_of_prefix hsh ht.terminal
      opened := opened_of_prefix hq ht.opened
      holders := fun pid y hy hn => ht.holders_move hb h hr hd.move hw hy hn
      silent := fun hnone => by
        rw [outputOf_append, ht.silent (himage hnone), hsilent (himage hnone), List.append_nil]
      outputs := fun y hy hc => ht.outputs_move hb h hr hd.move hw₀ hy hc
      launched := by
        intro hi
        by_cases hnone : (H q).image = none
        · obtain ⟨o, ho⟩ := hd.launched hqnew (hcode hnone) hnone hi
          exact ⟨o, List.mem_append_right _ ho⟩
        · obtain ⟨o, ho⟩ := ht.launched hnone
          exact ⟨o, List.mem_append_left _ ho⟩
      stdout := by
        intro o ho
        have hbefore := (List.mem_append.1 ho).elim (ht.stdout o) (ht.stdout_deed hb h hr hd hw₀)
        exact hbefore.imp_right fun ⟨hclosed, hnone, habandoned⟩ =>
          ⟨hclosed, hnone, habandoned.deed hd ht.lt_above⟩ }
  cases hd with
  | other hmove hf ho =>
    refine hkeep ((System.Quiet.of_eq hf ho).mild f) ?_ opening?_of_launches
      fun _ => outputOf_launches
    rw [outputOf_launches, List.append_nil]
    exact ht.fills.of_eq hf (by rw [ho])
  | @answered s' pid p c k x hp hn ha =>
    have hspares := ht.spares hb h hm hr hw hp hn
    have hchange : System.Change s (s'.resume pid (k x)) pid p ⟨c, x⟩ (s.notes pid p ⟨c, x⟩) :=
      (System.change_of_answer ha).of_eq (System.files_modifyProcess _ _ _)
        (System.openFiles_modifyProcess _ _ _)
    refine hkeep (hchange.mild hspares) (ht.fills.change ht.guards hp hchange hspares)
      (System.opening?_of_change hchange hspares) fun hnone => outputOf_eq_nil fun note hnote => ?_
    cases note with
    | opened | launched => rfl
    | wrote n' data =>
      refine if_neg ?_
      rintro rfl
      exact ht.not_wrote hb h hr hw₀ hp hn hnone hnote

end Steps

/-- In the course of the evaluation the target is as it was, or the last child has opened it. -/
theorem Chronicle.untouched_or_taken (h : Chronicle m s₀ ns H s) (hb : Begins s₀ sh p₀ st l rest)
    (hm : m.OnlyReads) (hr : l.redirect = some r) (hu : Untouched s₀ p₀ st r f [] s₀)
    (hw : (H sh).Within st l) :
    Untouched s₀ p₀ st r f ns s ∨ ∃ q n i, Taken s₀ p₀ st l r f sh q n i ns H s := by
  induction h with
  | start => exact .inl hu
  | deed h hd ih =>
    obtain hu' | ⟨q, n, i, ht⟩ := ih (hb.within h hd.move hw)
    · exact hu'.deed hb h hm hr hd hw
    · exact .inr ⟨q, n, i, ht.deed hb h hm hr hd hw⟩

end PipeShell
