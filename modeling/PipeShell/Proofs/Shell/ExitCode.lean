import Mathlib.Data.Int.ModEq
import Mathlib.Data.List.Induction
import Mathlib.Data.Nat.Digits.Defs
import PipeShell.Proofs.Shell.Dispatch

/-! The number that `exit` is given, and where it is seen. A text says the number that its digits
make, however many they are, after white space and one sign; the digits are added up in 32 bits, and
of these the operating system keeps eight. Main statement: the exit code is the one number of 32
bits that agrees with the number of the text, and the status is that number modulo 256, whether the
shell exits, a stage of a pipeline does, or the shell says what such a pipeline comes to
(`exit_status_of_number`). -/
namespace PipeShell

open Program

namespace ExitCode

variable {cs : List UInt8} {s t u run rest : Bytes} {v w : Int}

/-- Whether `run` are all bytes of `cs` at the start of `s`, and `rest` is what follows them. -/
structure Leading (cs : List UInt8) (s run rest : Bytes) : Prop where
  split : s = run ++ rest
  all : ∀ c ∈ run, c ∈ cs
  ends : ∀ c ∈ rest.head?, c ∉ cs

theorem leading_iff {P : UInt8 → Bool} (hP : ∀ c, P c = true ↔ c ∈ cs) :
    Leading cs s run rest ↔ run = s.takeWhile P ∧ rest = s.dropWhile P := by
  have hnot : ∀ c, P c = false ↔ c ∉ cs := fun c => by rw [← hP, Bool.not_eq_true]
  constructor
  · rintro ⟨rfl, hall, hends⟩
    have hrun : ∀ c ∈ run, P c = true := fun c hc => (hP c).2 (hall c hc)
    have hrest : rest.takeWhile P = [] ∧ rest.dropWhile P = rest := by
      cases rest with
      | nil => simp
      | cons c rest => simp [(hnot c).2 (hends c rfl)]
    simp [List.takeWhile_append_of_pos hrun, List.dropWhile_append_of_pos hrun, hrest]
  · rintro ⟨rfl, rfl⟩
    refine ⟨List.takeWhile_append_dropWhile.symm, fun c hc => ?_, fun c hc => ?_⟩
    · exact (hP c).1 (List.all_eq_true.1 List.all_takeWhile c hc)
    · have hhead := List.head?_dropWhile_not P s
      rw [Option.mem_def.1 hc] at hhead
      exact (hnot c).1 hhead

def whiteSpace : List UInt8 := [Byte.space, Byte.tab, Byte.newline, 13, 11, 12]

def decimals : List UInt8 := Bytes.ofAscii "0123456789"

theorem isSpace_iff (c : UInt8) : Byte.isSpace c = true ↔ c ∈ whiteSpace := by
  show (c == (32 : UInt8) || (decide ((9 : UInt8) ≤ c) && decide (c ≤ 13))) = true ↔
    c ∈ ([32, 9, 10, 13, 11, 12] : List UInt8)
  simp [UInt8.le_iff_toNat_le, ← UInt8.toNat_inj]
  omega

theorem isDigit_iff (c : UInt8) : Byte.isDigit c = true ↔ c ∈ decimals := by
  show (decide ((48 : UInt8) ≤ c) && decide (c ≤ 57)) = true ↔
    c ∈ ([48, 49, 50, 51, 52, 53, 54, 55, 56, 57] : List UInt8)
  simp [UInt8.le_iff_toNat_le, ← UInt8.toNat_inj]
  omega

def value (ds : Bytes) : Nat := Nat.ofDigits 10 (ds.map fun c => c.toNat - 48).reverse

theorem value_concat (ds : Bytes) (c : UInt8) :
    value (ds ++ [c]) = value ds * 10 + (c.toNat - 48) := by
  simp [value, Nat.ofDigits_cons]
  ring

theorem toInt_add_modEq (a b : Int32) : (a + b).toInt ≡ a.toInt + b.toInt [ZMOD 2 ^ 32] := by
  rw [Int32.toInt_add]
  exact Int.bmod_emod

theorem toInt_mul_modEq (a b : Int32) : (a * b).toInt ≡ a.toInt * b.toInt [ZMOD 2 ^ 32] := by
  rw [Int32.toInt_mul]
  exact Int.bmod_emod

theorem toInt_neg_modEq (a : Int32) : (-a).toInt ≡ -a.toInt [ZMOD 2 ^ 32] := by
  rw [Int32.toInt_neg]
  exact Int.bmod_emod

theorem toInt_digit {c : UInt8} (hc : Byte.isDigit c = true) :
    (c - Byte.zero).toUInt32.toInt32.toInt = (c.toNat - 48 : Nat) := by
  have hmem : c ∈ ([48, 49, 50, 51, 52, 53, 54, 55, 56, 57] : List UInt8) := (isDigit_iff c).1 hc
  simp only [List.mem_cons, List.not_mem_nil, or_false] at hmem
  obtain rfl | rfl | rfl | rfl | rfl | rfl | rfl | rfl | rfl | rfl := hmem <;> rfl

theorem toInt_modEq_value {ds : Bytes} (h : ∀ c ∈ ds, Byte.isDigit c = true) :
    (ds.foldl (fun n c => n * 10 + (c - Byte.zero).toUInt32.toInt32) 0 : Int32).toInt ≡ value ds
      [ZMOD 2 ^ 32] := by
  induction ds using List.reverseRecOn with
  | nil => rfl
  | append_singleton ds c ih =>
    have ih := ih fun c hc => h c (List.mem_append_left _ hc)
    rw [List.foldl_append, value_concat]
    refine (toInt_add_modEq _ _).trans ?_
    rw [toInt_digit (h c (by simp))]
    push_cast
    exact ((toInt_mul_modEq _ _).trans (ih.mul_right _)).add_right _

/-- Whether `t` goes on with `u` after a sign for the factor `k`. Without a sign the factor is 1. -/
def Signed (t : Bytes) (k : Int) (u : Bytes) : Prop :=
  t = Byte.plus :: u ∧ k = 1 ∨ t = Byte.minus :: u ∧ k = -1 ∨
    (∀ c ∈ t.head?, c ≠ Byte.plus ∧ c ≠ Byte.minus) ∧ t = u ∧ k = 1

theorem signed_iff {k : Int} :
    Signed t k u ↔ u = (sign t).2 ∧ k = if (sign t).1 = true then -1 else 1 := by
  have hne : Byte.plus ≠ Byte.minus := by decide
  unfold Signed
  cases t with
  | nil => grind [sign]
  | cons c t =>
    by_cases hminus : c = Byte.minus
    · grind [sign]
    · by_cases hplus : c = Byte.plus <;> grind [sign]

/-- Whether `s` says the number `v`: after white space and one sign come the digits of it. -/
def Says (s : Bytes) (v : Int) : Prop :=
  ∃ spaces t k u ds rest, Leading whiteSpace s spaces t ∧ Signed t k u ∧
    Leading decimals u ds rest ∧ v = k * value ds

/-- Whether the arguments of `exit` ask for the number `v`. -/
def Asks : List Bytes → Int → Prop
  | [], v => v = 0
  | a :: _, v => Says a v

theorem says_iff : Says s v ↔ v =
    (if (sign (s.dropWhile Byte.isSpace)).1 = true then -1 else 1) *
      value ((sign (s.dropWhile Byte.isSpace)).2.takeWhile Byte.isDigit) := by
  simp only [Says, leading_iff isSpace_iff, leading_iff isDigit_iff, signed_iff]
  constructor
  · rintro ⟨-, -, -, -, -, -, ⟨rfl, rfl⟩, ⟨rfl, rfl⟩, ⟨rfl, rfl⟩, rfl⟩
    rfl
  · rintro rfl
    exact ⟨_, _, _, _, _, _, ⟨rfl, rfl⟩, ⟨rfl, rfl⟩, ⟨rfl, rfl⟩, rfl⟩

theorem toInt_ofBytes_modEq (h : Says s v) : (ofBytes s).toInt ≡ v [ZMOD 2 ^ 32] := by
  obtain rfl := says_iff.1 h
  have hdigits : ∀ u : Bytes, (digits u).toInt ≡ value (u.takeWhile Byte.isDigit) [ZMOD 2 ^ 32] :=
    fun u => toInt_modEq_value fun c hc => List.all_eq_true.1 List.all_takeWhile c hc
  unfold ofBytes
  cases sign (s.dropWhile Byte.isSpace) with
  | mk negative u =>
    cases negative with
    | false => simpa using hdigits u
    | true => simpa using (toInt_neg_modEq _).trans (hdigits u).neg

theorem exists_asks (args : List Bytes) :
    ∃ v, (∀ w, Asks args w ↔ w = v) ∧ (ofArguments args).toInt ≡ v [ZMOD 2 ^ 32] := by
  cases args with
  | nil => exact ⟨0, fun w => Iff.rfl, rfl⟩
  | cons a args => exact ⟨_, fun w => says_iff, toInt_ofBytes_modEq (says_iff.2 rfl)⟩

theorem eq_of_toInt_modEq {n k : Int32} (h : n.toInt ≡ k.toInt [ZMOD 2 ^ 32]) : n = k := by
  have hn := n.toInt_lt
  have hk := k.toInt_lt
  have hn' := n.le_toInt
  have hk' := k.le_toInt
  rw [← Int32.toInt_inj]
  unfold Int.ModEq at h
  omega

theorem toNat_status_of_modEq {n : Int32} (h : n.toInt ≡ v [ZMOD 2 ^ 32]) :
    ((status n).toNat : Int) = v % 256 := by
  rw [toNat_status]
  exact h.of_dvd (by norm_num)

end ExitCode

def EndsIn (n : Int32) : Syscall → Prop
  | .exit k => k = n
  | .exec _ _ => False
  | _ => True

theorem calls_runInChild_exit {st : State} {c : Command} {isTerminal b : Bool}
    {Q : Bool → Empty → Prop} (hc : c.builtin? = some .exit) :
    (c.runInChild st isTerminal).Calls
      (fun _ d => EndsIn (ExitCode.ofArguments c.arguments) d) Q b := by
  rw [Command.runInChild, hc]
  cases isTerminal with
  | true => exact calls_exit.2 rfl
  | false =>
    show (close Fd.stdout >>= fun _ => Builtin.leave c.arguments).Calls _ _ _
    rw [calls_bind, calls_close]
    exact ⟨trivial, fun _ => calls_exit.2 rfl⟩

section Histories

variable {ι ρ : Type} {m : Machine ι} {s₀ t : System ι ρ} {ss : List (System ι ρ)}
  {H : Pid → Past} {q sh : Pid} {p₀ : Process ι ρ} {x y : Program ρ} {es gs : List Event}
  {n : Int32} {k : UInt8}

theorem History.status_of_calls (h : History m s₀ ss H t) (hs : s₀.Numbered)
    (hp : s₀.process? (H q).root = some p₀) (hc : p₀.control = .code x) (hr : x.Reaches es y)
    (hcode : (H q).code = es ++ gs) {b : Bool} {Q : Bool → ρ → Prop}
    (hy : y.Calls (fun _ d => EndsIn n d) Q b) (ho : outcome? ss q = some (.exited k)) :
    k = ExitCode.status n := by
  obtain ⟨-, H₁, s₁, z, hrun, hz, he, hpast⟩ := h.ended_of_outcome hs ho
  rw [hpast] at hp hcode
  have hexec := hrun.executes hs hz hp hc
  have himage : (H₁ q).image = none := by
    by_contra hne
    obtain ⟨path, argv, again, k, hreach⟩ := hexec.became hne
    rw [hcode, hr.append_iff] at hreach
    exact (hy.of_reaches hreach).2.1
  obtain ⟨code, hexit, rfl⟩ := hexec.exited _ he himage
  rw [hcode, hr.exits_append_iff] at hexit
  exact congrArg ExitCode.status (hy.of_exits hexit)

/-- Whether a process is the stage number `i` of the pipeline that the shell `sh` runs, and has been
wired. -/
def Past.Runs (sh : Pid) (l : CommandLine) (i : Nat) (h : Past) : Prop :=
  h.root = sh ∧ ∃ ls pids ws cs gs, ls.length + 1 = l.commands.length ∧ pids.length = i ∧
    h.code = openings ls ++ wired pids ws cs ++ gs ∧
    (wireStage (Link.before ls i) ls[i]? l.redirect).Returns ws (.ok ()) ∧
    (Link.closeAll ls).Returns cs ()

theorem History.status_of_stage {st : State} {l : CommandLine} {c : Command} {i : Nat}
    {rest : UInt8 → Program ρ} (h : History m s₀ ss H t) (hs : s₀.Numbered)
    (hp : s₀.process? sh = some p₀) (hc : p₀.control = .code (runPipeline st l >>= rest))
    (hrun : (H q).Runs sh l i) (hi : l.commands[i]? = some c) (hexit : c.builtin? = some .exit)
    (ho : outcome? ss q = some (.exited k)) :
    k = ExitCode.status (ExitCode.ofArguments c.arguments) := by
  obtain ⟨hroot, ls, pids, ws, cs, gs, hn, rfl, hcode, hws, hcs⟩ := hrun
  have hr := (reaches_runInChild (s := st) hn hi hws hcs).bind rest
  rw [never_bind] at hr
  exact h.status_of_calls hs (hroot ▸ hp) hc hr hcode (b := false) (Q := fun _ _ => True)
    (calls_never.2 (calls_runInChild_exit hexit)) ho

end Histories

/-- Whether `exit` with the arguments `args` is seen to ask for the number `v`, modulo 256. The
shell that it ends has that status, so has a pipeline of which it is the last `exit`, and so has a
child that runs it. What the wait for the child says is then no other than the status of the
pipeline. -/
structure StatusIs (args : List Bytes) (v : Int) : Prop where
  shell : ∀ (st : State) (l : CommandLine) (c : Command), l.EndsShell c → c.arguments = args →
    (evalLine st l).ExitsAtOnce (ExitCode.ofArguments args) ∧
    ∀ {ι ρ : Type} (m : Machine ι) (s₀ t : System ι ρ) ss H sh p₀ (rest : UInt8 → Program ρ),
      s₀.Numbered → s₀.process? sh = some p₀ → p₀.control = .code (evalLine st l >>= rest) →
      History m s₀ ss H t → ∀ k, outcome? ss sh = some (.exited k) → (k.toNat : Int) = v % 256
  pipeline : ∀ (st : State) (l : CommandLine) i c es status, LastExit l.commands i c →
    c.arguments = args → Supplied es → (runPipeline st l).Returns es status →
    (status.toNat : Int) = v % 256
  child : ∀ {ι ρ : Type} (m : Machine ι) (s₀ t : System ι ρ) ss H sh p₀ (st : State) l
      (rest : UInt8 → Program ρ), s₀.Numbered → s₀.process? sh = some p₀ →
    p₀.control = .code (runPipeline st l >>= rest) → History m s₀ ss H t →
    ∀ q i c, (H q).Runs sh l i → l.commands[i]? = some c → c.builtin? = some .exit →
      c.arguments = args → ∀ k, outcome? ss q = some (.exited k) →
      (k.toNat : Int) = v % 256 ∧ ∃ w, WaitStatus.ofTermination? (.exited k) = some w ∧ w.code = k
  agrees : ∀ {ι ρ : Type} (m : Machine ι) (s₀ t : System ι ρ) ss H sh p₀ (st : State) l
      (rest : UInt8 → Program ρ), s₀.Numbered → s₀.process? sh = some p₀ →
    p₀.control = .code (runPipeline st l >>= rest) → History m s₀ ss H t →
    ∀ es more status i c, (H sh).code = es ++ more → Supplied es →
      (runPipeline st l).Returns es status → LastExit l.commands i c → c.arguments = args →
      ∀ q k, (H q).Runs sh l i → (⟨.wait q, .ok (.exited k)⟩ : Event) ∈ es →
      ∃ w, WaitStatus.ofTermination? (.exited k) = some w ∧ w.code = status

theorem WaitStatus.exists_of_exited (k : UInt8) :
    ∃ w, WaitStatus.ofTermination? (.exited k) = some w ∧ w.code = k :=
  ⟨_, rfl, by simp [WaitStatus.code, ExitCode.status]⟩

theorem LastExit.builtin? {commands : List Command} {i : Nat} {c : Command}
    (h : LastExit commands i c) : c.builtin? = some .exit := Command.builtin?_eq_exit_iff.2 h.2.1

theorem status_of_runPipeline {st : State} {l : CommandLine} {i : Nat} {c : Command}
    {es : List Event} {status : UInt8} (hlast : LastExit l.commands i c) (hes : Supplied es)
    (h : (runPipeline st l).Returns es status) :
    status = ExitCode.status (ExitCode.ofArguments c.arguments) := by
  have hl : l.commands ≠ [] := List.ne_nil_of_mem (List.mem_of_getElem? hlast.1)
  obtain ⟨-, -, -, -, -, -, -, rfl⟩ := (returns_runPipeline_iff hl hes).1 h
  exact pipelineStatus_of_lastExit hlast

theorem statusIs {args : List Bytes} {v : Int}
    (hv : (ExitCode.ofArguments args).toInt ≡ v [ZMOD 2 ^ 32]) : StatusIs args v where
  shell st l c hc hargs := by
    subst hargs
    refine ⟨exitsAtOnce_of_endsShell hc, ?_⟩
    intro ι ρ m s₀ t ss H sh p₀ rest hs hp hcode h k hk
    have hroot : (H sh).root = sh := (h.run.native.2 sh (hs sh p₀ hp)).1
    rw [evalLine_of_endsShell hc, never_bind] at hcode
    have hcalls : (never (Builtin.leave c.arguments) : Program ρ).Calls
        (fun _ d => EndsIn (ExitCode.ofArguments c.arguments) d) (fun _ _ => True) false :=
      calls_never.2 (calls_exit.2 rfl)
    rw [h.status_of_calls hs (hroot.symm ▸ hp) hcode (.refl _) (List.nil_append _).symm hcalls hk]
    exact ExitCode.toNat_status_of_modEq hv
  pipeline st l i c es status hlast hargs hes h := by
    subst hargs
    rw [status_of_runPipeline hlast hes h]
    exact ExitCode.toNat_status_of_modEq hv
  child m s₀ t ss H sh p₀ st l rest hs hp hcode h q i c hrun hi hexit hargs k hk := by
    subst hargs
    refine ⟨?_, WaitStatus.exists_of_exited k⟩
    rw [h.status_of_stage hs hp hcode hrun hi hexit hk]
    exact ExitCode.toNat_status_of_modEq hv
  agrees m s₀ t ss H sh p₀ st l rest hs hp hcode h es more status i c hes hsupplied hret hlast hargs
      q k hrun hwait := by
    have hmem : (⟨.wait q, .ok (.exited k)⟩ : Event) ∈ (H sh).code :=
      hes ▸ List.mem_append_left more hwait
    have hk := h.status_of_stage hs hp hcode hrun hlast.1 hlast.builtin?
      (h.outcome_of_wait hs hmem).1
    rw [status_of_runPipeline hlast hsupplied hret, ← hk]
    exact WaitStatus.exists_of_exited k

/-- The status that `exit` makes is the number that it is given, modulo 256, wherever it is run. -/
theorem exit_status_of_number (args : List Bytes) : ∃ v : Int,
    (∀ w, ExitCode.Asks args w ↔ w = v) ∧
    (∀ n : Int32, n.toInt ≡ v [ZMOD 2 ^ 32] ↔ n = ExitCode.ofArguments args) ∧
    StatusIs args v := by
  obtain ⟨v, hasks, hv⟩ := ExitCode.exists_asks args
  refine ⟨v, hasks, fun n => ⟨fun hn => ?_, ?_⟩, statusIs hv⟩
  · exact ExitCode.eq_of_toInt_modEq (hn.trans hv.symm)
  · rintro rfl
    exact hv

namespace ExitStage

open TwoStages (cat machine process)

def leave : Command := ⟨Bytes.ofAscii "exit", [Bytes.ofAscii "\t-253x"]⟩

def line : CommandLine := ⟨[.command cat, .pipe, .command leave], none⟩

def lone : CommandLine := ⟨[.command leave], none⟩

def descriptors : Table Descriptor :=
  ⟨[(0, ⟨0, false⟩), (1, ⟨1, false⟩), (2, ⟨1, false⟩)], by decide⟩

def openFiles : Table OpenFile :=
  ⟨[(0, ⟨.source 0, true, false, false, 0⟩), (1, ⟨.file 0, false, true, true, 0⟩)], by decide⟩

def shell (p : Program UInt8) : Process Unit UInt8 := process 0 p descriptors true

theorem control_shell (p : Program UInt8) : (shell p).control = .code (p >>= done) :=
  congrArg Control.code (bind_done p).symm

def boot (p : Program UInt8) : System Unit UInt8 :=
  ⟨⟨Table.empty⟩, openFiles, Table.empty, 8, Table.empty, Table.empty.set 1 (shell p), 2, 0⟩

theorem numbered (p : Program UInt8) : (boot p).Numbered := by
  intro pid q hq
  have hq := (Table.get?_set _ 1 pid _).symm.trans hq
  split at hq
  · exact ‹pid = 1› ▸ Nat.one_lt_two
  · cases hq

def waiting : List Event :=
  [⟨.close 3, .ok ()⟩, ⟨.close 4, .ok ()⟩, ⟨.wait 2, .ok (.signaled 9)⟩,
    ⟨.wait 3, .ok (.exited 3)⟩]

theorem run_line : ∃ H t,
    Run machine (boot (runPipeline (State.ofSearchPath none) line)) H t ∧
    (H 1).code = openings [⟨3, 4⟩] ++ forks [2, 3] ++ waiting ∧ (H 3).Runs 1 line 1 := by
  have h := ((Run.start (m := machine)).answered
    (rfl : (boot (runPipeline (State.ofSearchPath none) line)).process? 1 = some _) rfl rfl :)
  have h := (h.forked (rfl : System.process? _ 1 = some _) rfl rfl :)
  have h := (h.forked (rfl : System.process? _ 1 = some _) rfl rfl :)
  have h := (h.answered (rfl : System.process? _ 3 = some _) rfl rfl :)
  have h := (h.answered (rfl : System.process? _ 3 = some _) rfl rfl :)
  have h := (h.answered (rfl : System.process? _ 3 = some _) rfl rfl :)
  have h := (h.answered (rfl : System.process? _ 3 = some _) rfl rfl :)
  have h := (h.exited (rfl : System.process? _ 3 = some _) rfl :)
  have h := h.signaled 2 9
  have h := (h.answered (rfl : System.process? _ 1 = some _) rfl rfl :)
  have h := (h.answered (rfl : System.process? _ 1 = some _) rfl rfl :)
  have h := (h.answered (rfl : System.process? _ 1 = some _) rfl rfl :)
  have h := (h.answered (rfl : System.process? _ 1 = some _) rfl rfl :)
  refine ⟨_, _, h, rfl, rfl, [⟨3, 4⟩], [2], [⟨.dup2 3 0, .ok ()⟩],
    [⟨.close 3, .ok ()⟩, ⟨.close 4, .ok ()⟩], [], rfl, rfl, rfl, .next rfl (.refl _), ?_⟩
  exact .next rfl (.next rfl (.refl _))

theorem run_lone : ∃ H t x, Run machine (boot (evalLine (State.ofSearchPath none) lone)) H t ∧
    t.process? 1 = some x ∧ x.control = .ended (.exited 3) := by
  have h := ((Run.start (m := machine)).exited
    (rfl : (boot (evalLine (State.ofSearchPath none) lone)).process? 1 = some _) rfl :)
  exact ⟨_, _, _, h, rfl, rfl⟩

end ExitStage

open ExitStage in
/-- A tab, -253 and a letter ask for 3, whether the shell does `exit` or the last stage. -/
theorem exit_status_of_minus_253 :
    ExitCode.Asks leave.arguments (-253) ∧
    (∃ ss H t k, History TwoStages.machine (boot (evalLine (State.ofSearchPath none) lone)) ss H t ∧
      outcome? ss 1 = some (.exited k) ∧ (k.toNat : Int) = -253 % 256) ∧
    ∃ ss H t k w,
      History TwoStages.machine (boot (runPipeline (State.ofSearchPath none) line)) ss H t ∧
      (H 3).Runs 1 line 1 ∧ outcome? ss 3 = some (.exited k) ∧ (k.toNat : Int) = -253 % 256 ∧
      (3 : UInt8).toNat = (-253 : Int) % 256 ∧
      WaitStatus.ofTermination? (.exited k) = some w ∧ w.code = 3 := by
  have hasks : ExitCode.Asks leave.arguments (-253) := ExitCode.says_iff.2 (by decide)
  obtain ⟨v, hv, -, hstatus⟩ := exit_status_of_number leave.arguments
  obtain rfl := (hv _).1 hasks
  refine ⟨hasks, ?_, ?_⟩
  · obtain ⟨H, t, x, hrun, hx, he⟩ := run_lone
    obtain ⟨ss, h⟩ := hrun.exists_history
    have ho := h.outcome_of_ended (numbered _) hx he
    have hends : lone.EndsShell leave := ⟨by decide, .inl rfl⟩
    refine ⟨ss, H, t, 3, h, ho, ?_⟩
    exact (hstatus.shell _ _ _ hends rfl).2 _ _ _ _ _ _ _ done (numbered _) rfl (control_shell _) h
      _ ho
  · obtain ⟨H, t, hrun, hcode, hruns⟩ := run_line
    obtain ⟨ss, h⟩ := hrun.exists_history
    have hcontrol := control_shell (runPipeline (State.ofSearchPath none) line)
    have hlast : LastExit line.commands 1 leave := by
      refine ⟨rfl, rfl, fun j d hj hd => ?_⟩
      obtain ⟨j, rfl⟩ : ∃ i, j = i + 2 := ⟨j - 2, by omega⟩
      cases hd
    have hsupplied : Supplied (openings [⟨3, 4⟩] ++ forks [2, 3] ++ waiting) := by
      constructor
      all_goals
        intro e he
        simp only [openings, forks, waiting, List.map_cons, List.map_nil, List.mem_append,
          List.mem_cons, List.not_mem_nil, or_false] at he
        obtain (he | he | he) | he | he | he | he := he <;> cases he
    have hreturns : (runPipeline (State.ofSearchPath none) line).Returns
        (openings [⟨3, 4⟩] ++ forks [2, 3] ++ waiting) 3 :=
      .next rfl (.next rfl (.next rfl (.next rfl (.next rfl (.next rfl (.next rfl (.refl _)))))))
    have hwait : (⟨.wait 3, .ok (.exited 3)⟩ : Event) ∈
        openings [⟨3, 4⟩] ++ forks [2, 3] ++ waiting := by
      simp [waiting]
    have ho := (h.outcome_of_wait (numbered _) (hcode ▸ hwait)).1
    have hchild := hstatus.child _ _ _ _ _ _ _ _ _ done (numbered _) rfl hcontrol h 3 1 leave hruns
      rfl hlast.builtin? rfl 3 ho
    have hpipeline := hstatus.pipeline _ _ _ _ _ _ hlast rfl hsupplied hreturns
    obtain ⟨w, hw, hcode⟩ := hstatus.agrees _ _ _ _ _ _ _ _ _ done (numbered _) rfl hcontrol h _ []
      _ _ _ (hcode.trans (List.append_nil _).symm) hsupplied hreturns hlast rfl 3 3 hruns hwait
    exact ⟨ss, H, t, 3, w, h, hruns, ho, hchild.1, hpipeline, hw, hcode⟩

end PipeShell
