import PipeShell.Proofs.Kernel.Blocking
import PipeShell.Proofs.Kernel.History
import PipeShell.Proofs.Shell.Holders

/-! A pipeline does not block itself. A stage that waits for input waits for whoever can still write
to its link, and a stage that waits for room for whoever can still read from it. Until a stage is
wired none of its calls has to wait, and until the shell has closed the links none of its calls has
to. Since an empty link is not full, whoever is waited for upstream waits, if at all, further
upstream, and the same goes for downstream, so that the waiting comes to an end at somebody who can
go on. Main statement: so it is in every state of every run (`pipeline_progress`). -/
namespace PipeShell

open Program

section Pipelines

variable {ι ρ : Type} {m : Machine ι} {s₀ t : System ι ρ} {H : Pid → Past} {sh pid : Pid}
  {p₀ p : Process ι ρ} {st : State} {l : CommandLine} {links : List Link} {q : Nat → Nat}
  {rest : UInt8 → Program ρ} {i : Nat}

section Setup

variable {es : List Event} {y : Program UInt8}

def Preparing (st : State) (l : CommandLine) (links : List Link) (es : List Event) : Prop :=
  ∃ c again k, (runStages st l links).Reaches es (call c again k) ∧
    (c = .fork ∨ ∃ fd, c = .close fd)

def Prepared (l : CommandLine) (links : List Link) (pids : List Pid) (es : List Event) : Prop :=
  pids.length = l.commands.length ∧ ∃ fs, es = forks pids ++ fs ∧
    ∀ fd ∈ Link.ends links, ∃ r, (⟨.close fd, r⟩ : Event) ∈ fs

theorem Prepared.append {pids : List Pid} (h : Prepared l links pids es) (fs : List Event) :
    Prepared l links pids (es ++ fs) := by
  obtain ⟨hlen, gs, rfl, hclosed⟩ := h
  refine ⟨hlen, gs ++ fs, List.append_assoc _ _ _, fun fd hfd => ?_⟩
  obtain ⟨r, hr⟩ := hclosed fd hfd
  exact ⟨r, List.mem_append_left _ hr⟩

theorem reaches_conclude_cases {job : Job} (h : (conclude l links (.ok job)).Reaches es y) :
    (∃ fd again k, y = call (.close fd) again k) ∨
      (∀ fd ∈ Link.ends links, ∃ r, (⟨.close fd, r⟩ : Event) ∈ es) ∧
        ∀ child again k, y = call (.wait child) again k → child ∈ job.stages.map Stage.pid := by
  obtain ⟨c, again, k, hc, rfl⟩ | ⟨⟨⟩, es₁, es₂, rfl, hclose, hwait⟩ := reaches_bind_cases h
  · have hcalls : (Link.closeAll links).Calls (fun _ c => ∃ fd, c = .close fd) (fun _ _ => True)
        false := calls_closeAll (fun fd => ⟨fd, rfl⟩) trivial
    obtain ⟨fd, rfl⟩ := (hcalls.of_reaches hc).2.1
    exact .inl ⟨fd, _, _, rfl⟩
  · refine .inr ⟨fun fd hfd => ?_, ?_⟩
    · have hes := (((performs_closeAll links).1 _ _).1 hclose).1
      rw [Link.enacts_closes_iff] at hes
      have hmem : Syscall.close fd ∈ es₁.map Event.call := hes ▸ List.mem_map_of_mem hfd
      obtain ⟨⟨c, r⟩, he, rfl⟩ := List.mem_map.1 hmem
      exact ⟨r, List.mem_append_left _ he⟩
    · rintro child again k rfl
      have hcalls : (awaitStages l job).Calls
          (fun _ c => ∀ child, c = .wait child → child ∈ job.stages.map Stage.pid)
          (fun _ _ => True) false := by
        refine calls_awaitStages (fun s hs child he => ?_) (fun _ => nofun) fun _ => trivial
        injection he with he
        exact he ▸ List.mem_map_of_mem hs
      exact (hcalls.of_reaches hwait).2.1 child rfl

variable (ho : Own es) (hf : ∀ e, (⟨.fork, .error e⟩ : Event) ∉ es)
include ho hf

theorem preparing_or_prepared (h : (runStages st l links).Reaches es y) :
    (∃ c again k, y = call c again k ∧ (c = .fork ∨ ∃ fd, c = .close fd)) ∨
      ∃ pids, Prepared l links pids es ∧
        ∀ child again k, y = call (.wait child) again k → child ∈ pids := by
  have hspawn : ∀ {es : List Event} {z}, (spawnStages st l.commands links l.redirect).Reaches es z →
      Own es → (∀ e, (⟨.fork, .error e⟩ : Event) ∉ es) → (∃ again k, z = call .fork again k) ∨
        ∃ pids : List Pid, pids.length = l.commands.length ∧ es = forks pids ∧
          z = done
            (.ok (pids.foldl JobBuilder.push (JobBuilder.ofSize l.commands.length)).build) := by
    intro es z hz ho hf
    obtain ⟨pids, fs, rfl, hcases⟩ := reaches_spawnStages_cases st links l.redirect hz
    obtain ⟨-, -, hfork⟩ | ⟨hlen, rfl, rfl⟩ | ⟨-, e, gs, rfl, -⟩ | ⟨-, gs, z, rfl, -⟩ := hcases
    · exact .inl hfork
    · exact .inr ⟨pids, hlen, List.append_nil _, rfl⟩
    · exact absurd (List.mem_append_right _ List.mem_cons_self) (hf e)
    · cases (own_cons.1 (own_append.1 ho).2).1
  obtain ⟨c, again, k, hc, rfl⟩ | ⟨x, es₁, es₂, rfl, h₁, h₂⟩ := reaches_bind_cases h
  · obtain ⟨again', k', hfork⟩ | ⟨pids, -, -, hdone⟩ := hspawn hc ho hf
    · cases hfork
      exact .inl ⟨.fork, _, _, rfl, .inl rfl⟩
    · cases hdone
  · obtain ⟨again', k', hfork⟩ | ⟨pids, hlen, rfl, hdone⟩ := hspawn h₁ (own_append.1 ho).1
        fun e he => hf e (List.mem_append_left _ he)
    · cases hfork
    · cases hdone
      obtain ⟨fd, again, k, rfl⟩ | ⟨hclosed, hwait⟩ := reaches_conclude_cases h₂
      · exact .inl ⟨_, _, _, rfl, .inr ⟨fd, rfl⟩⟩
      · refine .inr ⟨pids, ⟨hlen, es₂, rfl, hclosed⟩, fun child again k hy => ?_⟩
        simpa [JobBuilder.build, pids_foldl_push, JobBuilder.ofSize] using hwait child again k hy

end Setup

theorem Returned.prepared {es : List Event} (h : Returned st l links es) (ho : Own es)
    (hf : ∀ e, (⟨.fork, .error e⟩ : Event) ∉ es) : ∃ pids, Prepared l links pids es := by
  obtain ⟨es₁, es₂, status, rfl, hret⟩ := h
  obtain ⟨c, again, k, hdone, -⟩ | ⟨pids, hprepared, -⟩ :=
    preparing_or_prepared (own_append.1 ho).1 (fun e he => hf e (List.mem_append_left _ he)) hret
  · cases hdone
  · exact ⟨pids, hprepared.append es₂⟩

/-- Process `x` waits for process `y`: it is about to read from a pipe to which the other can write,
or to write to a pipe from which the other can read, and cannot. -/
inductive WaitsFor (m : Machine ι) (t : System ι ρ) (x y : Pid) : Prop
  | input {p p' : Process ι ρ} {fd fd' : Fd} {n count : Nat}
      {k : (Syscall.read fd count).Reply → Control ι ρ} (hp : t.process? x = some p)
      (hp' : t.process? y = some p') (hn : p.next? m = some ⟨.read fd count, k⟩)
      (hwait : t.read p fd count = none) (hf : t.Refers p fd (.readEnd n))
      (hf' : t.Refers p' fd' (.writeEnd n)) : WaitsFor m t x y
  | output {p p' : Process ι ρ} {fd fd' : Fd} {n : Nat} {data : Bytes}
      {k : (Syscall.write fd data).Reply → Control ι ρ} (hp : t.process? x = some p)
      (hp' : t.process? y = some p') (hn : p.next? m = some ⟨.write fd data, k⟩)
      (hwait : t.write p fd data = none) (hf : t.Refers p fd (.writeEnd n))
      (hf' : t.Refers p' fd' (.readEnd n)) : WaitsFor m t x y

/-- Process `p` waits for input from the empty pipe `n`. -/
structure Starved (m : Machine ι) (t : System ι ρ) (n : Nat) (p : Process ι ρ) : Prop where
  next : ∃ count k, p.next? m = some ⟨.read Fd.stdin count, k⟩ ∧ t.read p Fd.stdin count = none
  refers : t.Refers p Fd.stdin (.readEnd n)

structure Clogged (m : Machine ι) (t : System ι ρ) (n : Nat) (p : Process ι ρ) : Prop where
  next : ∃ data k, p.next? m = some ⟨.write Fd.stdout data, k⟩ ∧ t.write p Fd.stdout data = none
  refers : t.Refers p Fd.stdout (.writeEnd n)

section Pipes

variable {n : Nat}

theorem Starved.empty (h : Starved m t n p) :
    (t.pipes.get? n).getD [] = [] ∧ t.isHeld (.writeEnd n) = true := by
  obtain ⟨⟨count, k, -, hwait⟩, i, f, ho, hr⟩ := h
  exact System.of_read_eq_none hwait ho hr

theorem Clogged.full (h : Clogged m t n p) :
    t.capacity ≤ ((t.pipes.get? n).getD []).length ∧ t.isHeld (.readEnd n) = true := by
  obtain ⟨⟨data, k, -, hwait⟩, i, f, ho, hr⟩ := h
  exact System.of_write_eq_none hwait ho hr

theorem Starved.not_clogged {p' : Process ι ρ} (hroom : 0 < t.capacity) (h : Starved m t n p) :
    ¬Clogged m t n p' := by
  intro h'
  have hle := h'.full.1
  rw [h.empty.1, List.length_nil] at hle
  omega

theorem Starved.exists_writer (h : Starved m t n p) (hp : t.process? pid = some p) :
    ∃ y p' fd, t.process? y = some p' ∧ t.Refers p' fd (.writeEnd n) ∧ WaitsFor m t pid y := by
  obtain ⟨y, p', fd, hp', hf⟩ := System.isHeld_iff_refers.1 h.empty.2
  obtain ⟨count, k, hn, hwait⟩ := h.next
  exact ⟨y, p', fd, hp', hf, .input hp hp' hn hwait h.refers hf⟩

theorem Clogged.exists_reader (h : Clogged m t n p) (hp : t.process? pid = some p) :
    ∃ y p' fd, t.process? y = some p' ∧ t.Refers p' fd (.readEnd n) ∧ WaitsFor m t pid y := by
  obtain ⟨y, p', fd, hp', hf⟩ := System.isHeld_iff_refers.1 h.full.2
  obtain ⟨data, k, hn, hwait⟩ := h.next
  exact ⟨y, p', fd, hp', hf, .output hp hp' hn hwait h.refers hf⟩

end Pipes

/-- What is taken for granted about the processes of stages once their programs run: nobody is
stopped, a pipe has room for something, and a program that cannot go on is about to read its
standard input or to write its standard output, where nothing has to wait but at a link. -/
structure Streaming (m : Machine ι) (t : System ι ρ) (H : Pid → Past) (sh : Pid) (n : Nat)
    (q : Nat → Nat) : Prop where
  room : 0 < t.capacity
  shell : ∀ p, t.process? sh = some p → p.isStopped = false
  stages : ∀ pid p i, t.process? pid = some p → (H pid).OfStage sh i → p.isStopped = false
  streams : ∀ pid p i, t.process? pid = some p → (H pid).OfStage sh i → p.control.isImage = true →
    t.step m pid = none → (∃ count k, p.next? m = some ⟨.read Fd.stdin count, k⟩) ∨
      ∃ data k, p.next? m = some ⟨.write Fd.stdout data, k⟩
  input : ∀ pid p i count, t.process? pid = some p → (H pid).OfStage sh i →
    t.read p Fd.stdin count = none → ∃ j < n, t.Refers p Fd.stdin (.readEnd (q j))
  output : ∀ pid p i data, t.process? pid = some p → (H pid).OfStage sh i →
    t.write p Fd.stdout data = none → ∃ j < n, t.Refers p Fd.stdout (.writeEnd (q j))

/-- Whether process `pid` can go on, and is the shell that is preparing the pipeline, or belongs to
a stage. -/
def Advances (m : Machine ι) (t : System ι ρ) (H : Pid → Past) (sh : Pid) (st : State)
    (l : CommandLine) (links : List Link) (pid : Pid) : Prop :=
  (t.step m pid).isSome ∧ (pid = sh ∧ Preparing st l links (H sh).code ∨
    ∃ i < l.commands.length, (H pid).OfStage sh i)

theorem Process.next?_of_code {c : Syscall} {again : c.Reply → Bool} {k : c.Reply → Program ρ}
    (hp : p.isStopped = false) (hc : p.control = .code (call c again k)) :
    p.next? m = some ⟨c, fun r => if again r then p.control else .code (k r)⟩ := by
  simp [Process.next?, hp, hc]

theorem mayWait_of_conduct {c : Syscall} (h : Conduct true c) : c.mayWait = false := by
  cases c <;> first | rfl | cases h

theorem wired_of_reaches_stage {c : Command} {gs : List Event} {d : Syscall}
    {again : d.Reply → Bool} {k : d.Reply → Program Empty}
    (h : (stage st l links i c).Reaches gs (call d again k))
    (hd : ¬SetsUp d) (hne : d ≠ .defaultBrokenPipe) : ∃ es x fs gs',
      gs = ⟨.defaultBrokenPipe, ()⟩ :: (es ++ fs) ++ gs' ∧
      (wireStage (Link.before links i) links[i]? l.redirect).Returns es x ∧
      (Link.closeAll links).Returns fs () := by
  have hwire : (wireStage (Link.before links i) links[i]? l.redirect).Calls (fun _ c => SetsUp c)
      (fun _ _ => True) true := calls_wireStage (fun _ h => h) fun _ => trivial
  have hclose : (Link.closeAll links).Calls (fun _ c => SetsUp c) (fun _ _ => True) true :=
    calls_closeAll (fun _ => trivial) trivial
  rw [stage, stageChild_eq] at h
  obtain ⟨e, again', k', h₁, he⟩ | ⟨⟨⟩, es₁, es₂, rfl, h₁, h₂⟩ := reaches_bind_cases h
  · obtain rfl : d = e := by injection he
    obtain ⟨-, hcall⟩ | ⟨r, -, hcall⟩ := reaches_ask_iff.1 h₁
    · injection hcall with hcall
      exact absurd hcall hne
    · cases hcall
  · obtain rfl := returns_ask_iff.1 h₁
    obtain ⟨e, again', k', h₃, he⟩ | ⟨x, es, es₄, rfl, h₃, h₄⟩ := reaches_bind_cases h₂
    · obtain rfl : d = e := by injection he
      exact absurd (hwire.of_reaches h₃).2.1 hd
    · obtain ⟨e, again', k', h₅, he⟩ | ⟨⟨⟩, fs, gs, rfl, h₅, -⟩ := reaches_bind_cases h₄
      · obtain rfl : d = e := by injection he
        exact absurd (hclose.of_reaches h₅).2.1 hd
      · exact ⟨es, x, fs, gs, by simp, h₃, h₅⟩

theorem Executes.wired_of_image {past : Past}
    (hx : Executes (runStages st l links >>= rest) past p) (hstage : past.OfStage sh i)
    (hi : i < l.commands.length) (himage : past.image ≠ none) :
    ∃ x gs, past.Wired sh links l.redirect i x gs := by
  obtain ⟨hroot, pids, gs, rfl, hcode⟩ := hstage
  obtain ⟨path, argv, again, k, hr⟩ := hx.became himage
  rw [hcode, List.append_cons, (reaches_stage hi).append_iff] at hr
  obtain ⟨z, hz, hnever⟩ := reaches_never_iff.1 hr
  cases z with
  | done a => exact a.elim
  | call c again' k' =>
    obtain rfl : Syscall.exec path argv = c := by injection hnever
    obtain ⟨es, x, fs, gs', rfl, hwire, hclose⟩ := wired_of_reaches_stage hz nofun nofun
    exact ⟨x, gs', hroot, pids, es, fs, rfl, by simp [hcode, wired], hwire, hclose⟩

section Runs

variable (hl : Linked s₀ sh p₀ links q) (hs : s₀.Numbered)
  (hc : p₀.control = .code (runStages st l links >>= rest)) (h : Run m s₀ H t)
include hl hs hc h

variable (ht : Streaming m t H sh links.length q)
include ht

theorem advances_of_code (hp : t.process? pid = some p) (hcode : p.control.isCode = true)
    (hi : i < l.commands.length) (hstage : (H pid).OfStage sh i) :
    Advances m t H sh st l links pid := by
  have hstopped := ht.stages pid p i hp hstage
  obtain ⟨hroot, pids, gs, rfl, hpast⟩ := hstage
  refine ⟨?_, .inr ⟨_, hi, hroot, pids, gs, rfl, hpast⟩⟩
  cases hy : p.control with
  | code y =>
    obtain ⟨hr, -⟩ := (traced hl hs hc h hp hroot).2.code y hy
    rw [hpast, List.append_cons, (reaches_stage hi).append_iff] at hr
    obtain ⟨z, hz, rfl⟩ := reaches_never_iff.1 hr
    have hcalls : (stage st l links pids.length l.commands[pids.length]).Calls Conduct
        (fun _ _ => True) true := by
      rw [stage, calls_bind, calls_defaultBrokenPipe]
      exact ⟨trivial, calls_stageChild fun _ _ hc => hc⟩
    cases z with
    | done a => exact a.elim
    | call c again k =>
      have hconduct : Conduct true c := (hcalls.of_reaches hz).2.1
      exact System.step_isSome hp (Process.next?_of_code hstopped hy) (mayWait_of_conduct hconduct)
  | _ => rw [hy] at hcode; cases hcode

theorem advances_or_waits (hp : t.process? pid = some p) (hrun : ∀ e, p.control ≠ .ended e)
    (hi : i < l.commands.length) (hstage : (H pid).OfStage sh i) :
    Advances m t H sh st l links pid ∨ (∃ x gs, (H pid).Wired sh links l.redirect i x gs) ∧
      ((∃ j < links.length, i = j + 1 ∧ Starved m t (q j) p) ∨
        i < links.length ∧ Clogged m t (q i) p) := by
  cases hy : p.control with
  | ended e => exact absurd hy (hrun e)
  | code y =>
    exact .inl (advances_of_code hl hs hc h ht hp (by rw [hy]; rfl) hi hstage)
  | image x =>
    have himage : p.control.isImage = true := by
      rw [hy]
      rfl
    cases hstep : t.step m pid with
    | some t' => exact .inl ⟨by rw [hstep]; rfl, .inr ⟨i, hi, hstage⟩⟩
    | none =>
      have hx := (traced hl hs hc h hp hstage.1).2
      obtain ⟨x, gs, hw⟩ := hx.wired_of_image hstage hi (hx.image himage)
      have hshell : pid ≠ sh := by
        rintro rfl
        obtain ⟨-, ho⟩ := h.native.2 pid (hs pid p₀ hl.process)
        exact hstage.not_own (own_append.1 ho).1
      refine .inr ⟨⟨x, gs, hw⟩, ?_⟩
      obtain ⟨count, k, hn⟩ | ⟨data, k, hn⟩ := ht.streams pid p i hp hstage himage hstep
      · have hwait := System.read_eq_none hp hn hstep
        obtain ⟨j, hj, hf⟩ := ht.input pid p i count hp hstage hwait
        obtain ⟨hplace, -⟩ := (holds_of_reader hl hs hc h hp hj hf).2.of_wired hshell hw
        exact .inl ⟨j, hj, hplace, ⟨count, k, hn, hwait⟩, hf⟩
      · have hwait := System.write_eq_none hp hn hstep
        obtain ⟨j, hj, hf⟩ := ht.output pid p i data hp hstage hwait
        obtain ⟨rfl, -⟩ := (holds_of_writer hl hs hc h hp hj hf).2.of_wired hshell hw
        exact .inr ⟨hj, ⟨data, k, hn, hwait⟩, hf⟩

variable (hfork : ∀ e, (⟨.fork, .error e⟩ : Event) ∉ (H sh).code)
include hfork

theorem advances_or_prepared (hp : t.process? sh = some p) (hrun : ∀ e, p.control ≠ .ended e) :
    Advances m t H sh st l links sh ∨ ∃ pids, Prepared l links pids (H sh).code := by
  obtain ⟨hroot, hevents⟩ := h.native.2 sh (hs sh p₀ hl.process)
  have ho : Own (H sh).code := (own_append.1 hevents).1
  have hx := (traced hl hs hc h hp hroot).2
  cases hy : p.control with
  | ended e => exact absurd hy (hrun e)
  | image x =>
    have himage := hx.image (by rw [hy]; rfl)
    exact .inr ((hx.returned_of_image (inChild_eq_false_iff.2 ho) himage).prepared ho hfork)
  | code y =>
    obtain ⟨c, again, k, hr, rfl⟩ | ⟨status, es₁, es₂, he, hret, -⟩ :=
      reaches_bind_cases (hx.code y hy).1
    · obtain ⟨c', again', k', hcall, hprep⟩ | ⟨pids, hprepared, -⟩ :=
        preparing_or_prepared ho hfork hr
      · cases hcall
        have hwait : c.mayWait = false := by
          obtain rfl | ⟨fd, rfl⟩ := hprep <;> rfl
        have hn := Process.next?_of_code (m := m) (ht.shell p hp) hy
        exact .inl ⟨System.step_isSome hp hn hwait, .inl ⟨rfl, c, again, k, hr, hprep⟩⟩
      · exact .inr ⟨pids, hprepared⟩
    · have hret : Returned st l links (H sh).code := ⟨es₁, es₂, status, he, hret⟩
      exact .inr (hret.prepared ho hfork)

theorem advances_of_not_closed (hp : t.process? sh = some p) (hrun : ∀ e, p.control ≠ .ended e)
    (hopen : ¬∀ fd ∈ Link.ends links, ∃ r, (⟨.close fd, r⟩ : Event) ∈ (H sh).code) :
    Advances m t H sh st l links sh := by
  obtain hadvances | ⟨pids, -, fs, he, hclosed⟩ := advances_or_prepared hl hs hc h ht hfork hp hrun
  · exact hadvances
  · refine absurd (fun fd hfd => ?_) hopen
    obtain ⟨r, hr⟩ := hclosed fd hfd
    exact ⟨r, he ▸ List.mem_append_right _ hr⟩

theorem writer_advances_or_waits {j : Nat} {fd : Fd} (hp : t.process? pid = some p)
    (hj : j < links.length) (hf : t.Refers p fd (.writeEnd (q j))) :
    Advances m t H sh st l links pid ∨
      (∃ i < links.length, j = i + 1 ∧ Starved m t (q i) p) ∨ Clogged m t (q j) p := by
  obtain ⟨hrun, ⟨rfl, hopen⟩ | ⟨i, hi, hstage, hplace⟩⟩ := holds_of_writer hl hs hc h hp hj hf
  · exact .inl (advances_of_not_closed hl hs hc h ht hfork hp hrun hopen)
  · obtain hadvances | ⟨⟨x, gs, hwired⟩, hwaits⟩ :=
      advances_or_waits hl hs hc h ht hp hrun hi hstage
    · exact .inl hadvances
    · obtain ⟨rfl, -⟩ := hplace x gs hwired
      exact .inr (hwaits.imp_right And.right)

theorem reader_advances_or_waits {j : Nat} {fd : Fd} (hp : t.process? pid = some p)
    (hj : j < links.length) (hf : t.Refers p fd (.readEnd (q j))) :
    Advances m t H sh st l links pid ∨ Starved m t (q j) p ∨
      j + 1 < links.length ∧ Clogged m t (q (j + 1)) p := by
  obtain ⟨hrun, ⟨rfl, hopen⟩ | ⟨i, hi, hstage, hplace⟩⟩ := holds_of_reader hl hs hc h hp hj hf
  · exact .inl (advances_of_not_closed hl hs hc h ht hfork hp hrun hopen)
  · obtain hadvances | ⟨⟨x, gs, hwired⟩, hwaits⟩ :=
      advances_or_waits hl hs hc h ht hp hrun hi hstage
    · exact .inl hadvances
    · obtain ⟨rfl, -⟩ := hplace x gs hwired
      obtain ⟨j', -, hj', hstarved⟩ | hclogged := hwaits
      · obtain rfl := Nat.succ_inj.1 hj'
        exact .inr (.inl hstarved)
      · exact .inr (.inr hclogged)

/-- Whoever waits for input waits for somebody further upstream who can go on. -/
theorem exists_advancing_of_starved {j : Nat} (hj : j < links.length)
    (hp : t.process? pid = some p) (hw : Starved m t (q j) p) :
    ∃ y, Relation.ReflTransGen (WaitsFor m t) pid y ∧ Advances m t H sh st l links y := by
  induction j using Nat.strongRecOn generalizing pid p with
  | ind j ih =>
    obtain ⟨y, p', fd, hp', hf, hwaits⟩ := hw.exists_writer hp
    obtain hadvances | ⟨i, hi, rfl, hstarved⟩ | hclogged :=
      writer_advances_or_waits hl hs hc h ht hfork hp' hj hf
    · exact ⟨y, .single hwaits, hadvances⟩
    · obtain ⟨z, hchain, hz⟩ := ih i (Nat.lt_succ_self i) hi hp' hstarved
      exact ⟨z, .head hwaits hchain, hz⟩
    · exact absurd hclogged (hw.not_clogged ht.room)

theorem exists_advancing_of_clogged {j : Nat} (hj : j < links.length)
    (hp : t.process? pid = some p) (hw : Clogged m t (q j) p) :
    ∃ y, Relation.ReflTransGen (WaitsFor m t) pid y ∧ Advances m t H sh st l links y := by
  induction hd : links.length - j using Nat.strongRecOn generalizing j pid p with
  | ind d ih =>
    obtain ⟨y, p', fd, hp', hf, hwaits⟩ := hw.exists_reader hp
    obtain hadvances | hstarved | ⟨hj', hclogged⟩ :=
      reader_advances_or_waits hl hs hc h ht hfork hp' hj hf
    · exact ⟨y, .single hwaits, hadvances⟩
    · exact absurd hw (hstarved.not_clogged ht.room)
    · obtain ⟨z, hchain, hz⟩ := ih (links.length - (j + 1)) (by omega) hj' hp' hclogged rfl
      exact ⟨z, .head hwaits hchain, hz⟩

theorem exists_advancing (hp : t.process? pid = some p) (hrun : ∀ e, p.control ≠ .ended e)
    (hi : i < l.commands.length) (hstage : (H pid).OfStage sh i) :
    ∃ y, Relation.ReflTransGen (WaitsFor m t) pid y ∧ Advances m t H sh st l links y := by
  obtain hadvances | ⟨-, ⟨j, hj, -, hstarved⟩ | ⟨hi', hclogged⟩⟩ :=
    advances_or_waits hl hs hc h ht hp hrun hi hstage
  · exact ⟨pid, .refl, hadvances⟩
  · exact exists_advancing_of_starved hl hs hc h ht hfork hj hp hstarved
  · exact exists_advancing_of_clogged hl hs hc h ht hfork hi' hp hclogged

omit hc ht in
theorem ofStage_of_wait {child : Pid} {again : (Syscall.wait child).Reply → Bool}
    {k : (Syscall.wait child).Reply → Program UInt8}
    (hw : (runStages st l links).Reaches (H sh).code (call (.wait child) again k)) :
    ∃ i < l.commands.length, (H child).OfStage sh i := by
  have hsh := hs sh p₀ hl.process
  have ho : Own (H sh).code := (own_append.1 (h.native.2 sh hsh).2).1
  obtain ⟨c, again', k', hcall, hprep⟩ | ⟨pids, ⟨hlen, fs, he, -⟩, hmem⟩ :=
    preparing_or_prepared ho hfork hw
  · obtain rfl : Syscall.wait child = c := by injection hcall
    obtain hprep | ⟨fd, hprep⟩ := hprep <;> cases hprep
  · obtain ⟨before, after, rfl⟩ := List.append_of_mem (hmem child _ _ rfl)
    rw [forks_append, forks_cons, List.append_assoc, List.cons_append] at he
    obtain ⟨-, hroot, gs, hgs⟩ := h.children hsh _ _ _ he
    refine ⟨before.length, ?_, hroot, before, gs, rfl, by simpa using hgs.symm⟩
    rw [← hlen]
    simp

end Runs

/-- A pipeline whose links are open (`linked_of_openings`) does not block itself, whatever its
stages do and in whatever order, as long as they block on nothing but their input and output and no
fork fails. The shell can go on until it has forked all stages and closed the links. Every process
of a stage that has not ended can go on, or waits, perhaps by way of others, for one that can: for
the shell while it is preparing the pipeline, or for a process of a stage. And when the shell has
to wait for a child, then that is a stage that has not ended, and some stage can go on. -/
theorem pipeline_progress (hl : Linked s₀ sh p₀ links q) (hs : s₀.Numbered)
    (hc : p₀.control = .code (runStages st l links >>= rest)) (h : Run m s₀ H t)
    (hf : ∀ e, (⟨.fork, .error e⟩ : Event) ∉ (H sh).code)
    (ht : Streaming m t H sh links.length q) :
    (∀ p, t.process? sh = some p → (∀ e, p.control ≠ .ended e) →
      Advances m t H sh st l links sh ∨ ∃ pids, Prepared l links pids (H sh).code) ∧
    (∀ pid p i, t.process? pid = some p → (∀ e, p.control ≠ .ended e) → i < l.commands.length →
      (H pid).OfStage sh i →
        ∃ y, Relation.ReflTransGen (WaitsFor m t) pid y ∧ Advances m t H sh st l links y) ∧
    ∀ p child again k, t.process? sh = some p → p.control.isCode = true →
      (runStages st l links).Reaches (H sh).code (call (.wait child) again k) →
      t.step m sh = none → ∃ i < l.commands.length, (H child).OfStage sh i ∧
        ∃ p', t.process? child = some p' ∧ (∀ e, p'.control ≠ .ended e) ∧
          ∃ y, Relation.ReflTransGen (WaitsFor m t) child y ∧ (t.step m y).isSome ∧
            ∃ j < l.commands.length, (H y).OfStage sh j := by
  refine ⟨fun p => advances_or_prepared hl hs hc h ht hf,
    fun pid p i => exists_advancing hl hs hc h ht hf, ?_⟩
  intro p child again k hp hcode hw hstep
  obtain ⟨i, hi, hstage⟩ := ofStage_of_wait hl hs h hf hw
  have hnext : ∃ k, p.next? m = some ⟨.wait child, k⟩ := by
    cases hy : p.control with
    | code y =>
      obtain ⟨hroot, -⟩ := h.native.2 sh (hs sh p₀ hl.process)
      have hr := ((traced hl hs hc h hp hroot).2.code y hy).1
      obtain rfl := hr.unique (hw.bind rest)
      exact ⟨_, Process.next?_of_code (ht.shell p hp) hy⟩
    | _ => rw [hy] at hcode; cases hcode
  obtain ⟨k', hn⟩ := hnext
  obtain ⟨p', hp', hrun⟩ := System.of_wait_eq_none hp hn hstep
  obtain ⟨y, hchain, hsome, ⟨-, c, again', k'', hprep, hcall⟩ | hy⟩ :=
    exists_advancing hl hs hc h ht hf hp' hrun hi hstage
  · -- the shell is not preparing any more
    have hne := hw.unique hprep
    obtain rfl : Syscall.wait child = c := by injection hne
    obtain hcall | ⟨fd, hcall⟩ := hcall <;> cases hcall
  · exact ⟨i, hi, hstage, p', hp', hrun, y, hchain, hsome, hy⟩

end Pipelines

namespace TwoStages

def files : FileTree :=
  let user (c : Content) : Inode := ⟨c, 0o755, 0, 0⟩
  ⟨⟨[(0, user (.directory 0 [(Bytes.ofAscii "dev", 1), (Bytes.ofAscii "bin", 2)])),
    (1, user (.directory 0 [(Bytes.ofAscii "null", 3)])),
    (2, user (.directory 0 [(Bytes.ofAscii "cat", 4)])), (3, user .nullDevice),
    (4, user (.image cat.name))], by decide⟩⟩

def user : Credentials := ⟨0, 0, false⟩

theorem find_null : files.find user 0 (Bytes.ofAscii "/dev/null") =
    .ok (3, ⟨.nullDevice, 0o755, 0, 0⟩) := by
  have hnull : files.follow user FileTree.linkLimit 1 [Bytes.ofAscii "null"] false =
      .ok (.entry 1 (Bytes.ofAscii "null") (some 3) false) := by
    rw [FileTree.follow]
    rfl
  have hplace : files.place user 0 (Bytes.ofAscii "/dev/null") =
      .ok (.entry 1 (Bytes.ofAscii "null") (some 3) false) := by
    show files.follow user FileTree.linkLimit 0 [Bytes.ofAscii "dev", Bytes.ofAscii "null"]
      false = _
    rw [FileTree.follow]
    exact hnull
  rw [FileTree.find, hplace]
  rfl

theorem program_cat : files.program user 0 Header.depth (Bytes.ofAscii "/bin/cat") [cat.name] =
    .ok (cat.name, [cat.name]) := by
  have hcat : files.follow user FileTree.linkLimit 2 [cat.name] false =
      .ok (.entry 2 cat.name (some 4) false) := by
    rw [FileTree.follow]
    rfl
  have hplace : files.place user 0 (Bytes.ofAscii "/bin/cat") =
      .ok (.entry 2 cat.name (some 4) false) := by
    show files.follow user FileTree.linkLimit 0 [Bytes.ofAscii "bin", cat.name] false = _
    rw [FileTree.follow]
    exact hcat
  have hfind : files.find user 0 (Bytes.ofAscii "/bin/cat") =
      .ok (4, ⟨.image cat.name, 0o755, 0, 0⟩) := by
    rw [FileTree.find, hplace]
    rfl
  delta FileTree.program
  show (files.find user 0 (Bytes.ofAscii "/bin/cat") >>= _) = _
  rw [hfind]
  rfl

def readers : Machine Unit := ⟨fun _ _ => (), fun _ => ⟨.read Fd.stdin 1, fun _ => ()⟩⟩

def sink : OpenFile := ⟨.file 3, false, true, false, 0⟩

def installed (fs : Table OpenFile) (p x y : Process Unit UInt8) : System Unit UInt8 :=
  { forked p x y with files, openFiles := fs }

theorem answer_null (a b : Process Unit UInt8) (q : Program UInt8) :
    (installed openFiles a b (process 1 q fed false)).answer 3 (process 1 q fed false)
      (.openFile (Bytes.ofAscii "/dev/null") .write) =
    some (.ok 3,
      installed (openFiles.set 5 sink) a b (process 1 q (fed.set 3 ⟨5, true⟩) false)) := by
  have hopen : files.openAs user 0 (Bytes.ofAscii "/dev/null") .write = .ok (files, 3) := by
    show (files.find user 0 (Bytes.ofAscii "/dev/null") >>= _) = _
    rw [find_null]
    rfl
  have hpath : (installed openFiles a b (process 1 q fed false)).openPath 3 (process 1 q fed false)
      (Bytes.ofAscii "/dev/null") .write =
      .ok (installed (openFiles.set 5 sink) a b (process 1 q (fed.set 3 ⟨5, true⟩) false), 3) := by
    show (files.openAs user 0 (Bytes.ofAscii "/dev/null") .write >>= _) = _
    rw [hopen]
    rfl
  rw [System.answer, hpath]

def reading : Process Unit UInt8 :=
  { process 1 (done 0) (fed.set 2 ⟨5, false⟩) false with control := .image () }

def launching (p : Program (Except SetupError Unit)) : Program UInt8 :=
  never ((p >>= fun x => match x with
    | .error e => done e
    | .ok () =>
      if Byte.nul ∈ cat.name ∨ ∃ a ∈ cat.arguments, Byte.nul ∈ a then done .nulByte
      else Search.launch cat.name [cat.name] >>= fun e => done (.system e)) >>= fun _ => exit 1)

theorem run_reading : ∃ H q₁ q₂,
    Run readers boot H
      (installed (openFiles.set 5 sink) (process 0 q₁ dropped true) (process 1 q₂ feeding false)
        reading) ∧
    (H 1).code = forks [2, 3] ++ [⟨.close 3, .ok ()⟩, ⟨.close 4, .ok ()⟩] ∧
    (∃ again k, (runStages (State.ofSearchPath none) line links).Reaches (H 1).code
      (call (.wait 2) again k) ∧ q₁ = call (.wait 2) again k) ∧
    (H 2).OfStage 1 0 ∧ (H 3).OfStage 1 1 := by
  obtain ⟨H, q₁, q₂, q₃, h, hown, hfirst, hsecond⟩ := run_wired readers
  have hcontrol : shell.control = .code (runStages _ line links >>= done) :=
    congrArg Control.code (bind_done _).symm
  have hwait : ∃ again k, (runStages (State.ofSearchPath none) line links).Reaches (H 1).code
      (call (.wait 2) again k) ∧ q₁ = call (.wait 2) again k := by
    have hroot : (H 1).root = 1 := (h.native.2 1 (by decide)).1
    have hx := h.executes numbered (rfl : System.process? _ 1 = some _) (by rw [hroot]; rfl)
      hcontrol
    have hr := (hx.code q₁ rfl).1
    rw [bind_done, hown] at hr
    rw [hown]
    exact ⟨_, _, .next rfl (.next rfl (.next rfl (.next rfl (.refl _)))),
      hr.unique (.next rfl (.next rfl (.next rfl (.next rfl (.refl _)))))⟩
  obtain rfl : q₃ = launching (silenceStderr (Bytes.ofAscii "/dev/null")) := by
    have hx := h.executes numbered (rfl : System.process? _ 3 = some _) (hsecond.1 ▸ rfl) hcontrol
    obtain ⟨c, z, hc, rfl, hz⟩ := hsecond.command (by decide) (hx.code _ rfl).1
    obtain rfl := Option.some.inj hc
    obtain rfl := reaches_nil_iff.1 hz
    rfl
  obtain ⟨hroot, pids, gs, hlen, hcode⟩ := hsecond.ofStage
  let a := process 0 q₁ dropped true
  let b := process 1 q₂ feeding false
  let sunk := openFiles.set 5 sink
  -- it opens the sink and puts it in place
  have h : Run readers boot _ (installed openFiles a b _) := h.outside rfl rfl rfl rfl
  have h : Run readers boot _ (installed sunk a b
    (process 1 (launching (rebind 3 Fd.stderr)) (fed.set 3 ⟨5, true⟩) false)) :=
    (h.answered (rfl : System.process? _ 3 = some _) rfl (answer_null _ _ _) :)
  have h : Run readers boot _ (installed sunk a b
    (process 1 _ ((fed.set 3 ⟨5, true⟩).set 2 ⟨5, false⟩) false)) :=
    (h.answered (rfl : System.process? _ 3 = some _) rfl rfl :)
  have h : Run readers boot _ (installed sunk a b
    (process 1 (launching (done (.ok ()))) (fed.set 2 ⟨5, false⟩) false)) :=
    (h.answered (rfl : System.process? _ 3 = some _) rfl rfl :)
  -- it looks for its program and becomes it
  have h : ∃ k, Run readers boot _ (installed sunk a b
      (process 1 (call (.exec (Bytes.ofAscii "/bin/cat") [cat.name]) (fun _ => false) k)
        (fed.set 2 ⟨5, false⟩) false)) :=
    ⟨_, (h.answered (rfl : System.process? _ 3 = some _) rfl rfl :)⟩
  obtain ⟨k, h⟩ := h
  let x : Process Unit UInt8 := process 1 (call (.exec (Bytes.ofAscii "/bin/cat") [cat.name])
    (fun _ => false) k) (fed.set 2 ⟨5, false⟩) false
  have hx : (installed sunk a b x).process? 3 = some x := rfl
  have hn : x.next? readers =
    some ⟨.exec (Bytes.ofAscii "/bin/cat") [cat.name], fun r => .code (k r)⟩ := rfl
  have h : Run readers boot _ (installed sunk a b reading) := h.became hx hn program_cat
  refine ⟨_, _, _, h, hown, hwait, hfirst.ofStage, hroot, pids, ?_, hlen, ?_⟩
  rotate_left
  · show (H 3).code ++ _ ++ _ ++ _ ++ _ = _
    rw [hcode]
    simp only [List.append_assoc, List.cons_append]
    rfl

theorem streaming {a b : Program UInt8} {H : Pid → Past}
    (hown : (H 1).code = forks [2, 3] ++ [⟨.close 3, .ok ()⟩, ⟨.close 4, .ok ()⟩]) :
    Streaming readers (installed (openFiles.set 5 sink) (process 0 a dropped true)
      (process 1 b feeding false) reading) H 1 links.length fun _ => 0 := by
  have hstages : ∀ {pid p i}, (forked (process 0 a dropped true) (process 1 b feeding false)
      reading).process? pid = some p → (H pid).OfStage 1 i →
      p = process 1 b feeding false ∨ p = reading := by
    intro pid p i hp hi
    obtain ⟨rfl, -⟩ | ⟨-, hp⟩ | ⟨-, hp⟩ := process?_forked hp
    · exact absurd hi (not_ofStage_shell hown i)
    · exact .inl hp
    · exact .inr hp
  constructor
  case room => exact (by decide : 0 < 8)
  case shell =>
    intro p hp
    obtain ⟨-, rfl⟩ | ⟨hpid, -⟩ | ⟨hpid, -⟩ := process?_forked hp
    · rfl
    · cases hpid
    · cases hpid
  case stages =>
    intro pid p i hp hi
    obtain rfl | rfl := hstages hp hi <;> rfl
  case streams =>
    intro pid p i hp hi himage hstep
    obtain rfl | rfl := hstages hp hi
    · cases himage
    · exact .inl ⟨1, _, rfl⟩
  case input =>
    intro pid p i count hp hi hread
    obtain rfl | rfl := hstages hp hi
    · cases hread
    · exact ⟨0, by decide, 3, _, rfl, rfl⟩
  case output =>
    intro pid p i data hp hi hwrite
    obtain rfl | rfl := hstages hp hi
    · exact ⟨0, by decide, 4, _, rfl, rfl⟩
    · cases data <;> cases hwrite

end TwoStages

open TwoStages in
/-- The second stage of `cat | cat` waits for input and the shell for the first stage, which can go
on. -/
theorem pipeline_progress_of_two : ∃ H t, Run readers boot H t ∧
    Streaming readers t H 1 links.length (fun _ => 0) ∧ t.step readers 3 = none ∧
    t.step readers 1 = none ∧
    (∃ y, Relation.ReflTransGen (WaitsFor readers t) 3 y ∧
      Advances readers t H 1 (State.ofSearchPath none) line links y) ∧
    ∃ y, Relation.ReflTransGen (WaitsFor readers t) 2 y ∧ (t.step readers y).isSome ∧
      ∃ j < line.commands.length, (H y).OfStage 1 j := by
  obtain ⟨H, q₁, q₂, h, hown, ⟨again, k, hwait, rfl⟩, hfirst, hsecond⟩ := run_reading
  have hcontrol : shell.control = .code (runStages _ line links >>= done) :=
    congrArg Control.code (bind_done _).symm
  have hfork : ∀ e, (⟨.fork, .error e⟩ : Event) ∉ (H 1).code := by
    intro e he
    simp only [hown, forks, List.map_cons, List.map_nil, List.cons_append, List.nil_append,
      List.mem_cons, List.not_mem_nil, or_false] at he
    obtain he | he | he | he := he <;> cases he
  have ht := streaming (a := call (.wait 2) again k) (b := q₂) hown
  obtain ⟨-, hstages, hshell⟩ := pipeline_progress linked numbered hcontrol h hfork ht
  have hstep : (installed (openFiles.set 5 sink) (process 0 (call (.wait 2) again k) dropped true)
      (process 1 q₂ feeding false) reading).step readers 1 = none := rfl
  obtain ⟨-, -, -, -, -, -, hfed⟩ := hshell _ _ _ _ rfl rfl hwait hstep
  have hwaits := hstages 3 _ 1 rfl (fun _ he => by cases he) (by decide) hsecond
  exact ⟨H, _, h, ht, rfl, hstep, hwaits, hfed⟩

end PipeShell
