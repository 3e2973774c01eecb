import PipeShell.Proofs.Shell.Holders
import PipeShell.Proofs.Shell.Waiting

/-! The status of a pipeline. Once the stages have been forked the links are closed, every stage is
waited for, and the status is what the last `exit` of the line asks for or, if there is none, what
the wait for the last stage tells. Main statement: so it is for every pipeline, whatever the waits
say, and the last stage tells 1 if it could not be wired or its program not be launched
(`pipeline_status`). -/
namespace PipeShell

open Program

section Concluding

variable {l : CommandLine} {ls : List Link} {job : Job} {es fs : List Event} {status : UInt8}

def awaitJob (job : Job) (f : Job → UInt8) : Program UInt8 :=
  job.wait >>= fun x => (match x.2 with
    | some e => report "wait" e
    | none => done ()) >>= fun _ => done (f x.1)

theorem awaitStages_eq (l : CommandLine) (job : Job) :
    awaitStages l job = awaitJob job fun j => pipelineStatus l.commands j.code := by
  refine congrArg _ (funext fun x => ?_)
  obtain ⟨j, _ | e⟩ := x <;> rfl

theorem returns_awaitJob_iff {f : Job → UInt8} : (awaitJob job f).Returns es status ↔
    ∃ (as : List Attempt) (ws : List Event), as.map Attempt.child = job.stages.map Stage.pid ∧
      es = as.flatMap Attempt.events ++ ws ∧
      Enacts ((firstError as).toList.map (complaint "wait")) ws ∧ status = f (job.learn as) := by
  have hreport : ∀ e : Option Errno, (match e with
      | some e => report "wait" e
      | none => done () : Program Unit).Performs (e.toList.map (complaint "wait")) () := by
    rintro (_ | e)
    · exact performs_done ()
    · exact performs_report "wait" e
  rw [awaitJob, returns_bind_iff]
  constructor
  · rintro ⟨⟨j, e⟩, es, ws, rfl, hwait, h₂⟩
    obtain ⟨as, has, rfl, rfl, rfl⟩ := returns_jobWait_iff.1 hwait
    obtain ⟨⟨⟩, ws, ws', rfl, hws, h₃⟩ := returns_bind_iff.1 h₂
    obtain ⟨rfl, rfl⟩ := returns_done_iff.1 h₃
    exact ⟨as, ws, has, by simp, (((hreport _).1 _ _).1 hws).1, rfl⟩
  · rintro ⟨as, ws, has, rfl, hws, rfl⟩
    exact ⟨_, _, _, rfl, returns_jobWait_iff.2 ⟨as, has, rfl, rfl, rfl⟩,
      returns_bind_iff.2 ⟨(), ws, [], (List.append_nil _).symm, ((hreport _).1 _ _).2 ⟨hws, rfl⟩,
        returns_done_iff.2 ⟨rfl, rfl⟩⟩⟩

/-- The events by which a pipeline is concluded: the links are closed, the stages are waited for in
turn, and it is reported if one could not be. -/
def Concluding (ls : List Link) (as : List Attempt) (fs : List Event) : Prop :=
  ∃ cs ws, fs = cs ++ as.flatMap Attempt.events ++ ws ∧ Enacts (Link.closes ls) cs ∧
    Enacts ((firstError as).toList.map (complaint "wait")) ws

theorem returns_conclude_iff : (conclude l ls (.ok job)).Returns fs status ↔
    ∃ as : List Attempt, as.map Attempt.child = job.stages.map Stage.pid ∧ Concluding ls as fs ∧
      status = pipelineStatus l.commands (job.learn as).code := by
  rw [conclude, awaitStages_eq, returns_bind_iff]
  constructor
  · rintro ⟨⟨⟩, cs, fs, rfl, hclose, h⟩
    obtain ⟨as, ws, has, rfl, hws, rfl⟩ := returns_awaitJob_iff.1 h
    exact ⟨as, has, ⟨cs, ws, (List.append_assoc _ _ _).symm,
      (((performs_closeAll ls).1 _ _).1 hclose).1, hws⟩, rfl⟩
  · rintro ⟨as, has, ⟨cs, ws, rfl, hcs, hws⟩, rfl⟩
    exact ⟨(), cs, as.flatMap Attempt.events ++ ws, List.append_assoc _ _ _,
      ((performs_closeAll ls).1 _ _).2 ⟨hcs, rfl⟩,
      returns_awaitJob_iff.2 ⟨as, ws, has, rfl, hws, rfl⟩⟩

end Concluding

def Attempt.code (a : Attempt) : UInt8 :=
  match a.status with
  | .ok w => w.code
  | .error _ => 1

section Codes

variable {a : Attempt}

theorem Attempt.code_of_exited {k : UInt8} (h : a.reply = .ok (.exited k)) : a.code = k := by
  have hs : a.status = .ok (.exited k.toUInt32.toInt32) :=
    status_eq_ok_iff.2 ⟨_, h, rfl⟩
  rw [code, hs]
  simp [WaitStatus.code, ExitCode.status]

theorem Attempt.code_of_signaled {n : Signal} (h : a.reply = .ok (.signaled n))
    (hn : Signal.isNamed n = true) : a.code.toNat = 128 + n := by
  have hs : a.status = .ok (.signaled n false) :=
    status_eq_ok_iff.2 ⟨_, h, if_pos hn⟩
  have hle : n ≤ 31 := by
    unfold Signal.isNamed at hn
    simp at hn
    exact hn.2
  rw [code, hs]
  show (UInt8.ofNat (128 + n)).toNat = 128 + n
  have hlt : 128 + n < 256 := Nat.lt_of_le_of_lt (Nat.add_le_add_left hle 128) (by decide)
  rw [UInt8.toNat_ofNat', Nat.mod_eq_of_lt hlt]

theorem Attempt.code_of_error {e : Errno} (h : a.status = .error e) : a.code = 1 := by
  rw [code, h]

theorem JobBuilder.code_learn {pids : List Pid} {as : List Attempt}
    (has : as.map Attempt.child = pids) :
    ((pids.foldl push (ofSize pids.length)).build.learn as).code =
      as.getLast?.elim 1 Attempt.code := by
  have hfor := for_build pids
  have hstatuses := congrArg List.getLast? (statuses_learn has)
  rw [List.getLast?_map, List.getLast?_map] at hstatuses
  rw [Job.code, (hfor.learn (has.trans hfor.children.symm)).terminal]
  have hcode : ∀ a : Attempt, a.code = a.status.toOption.elim 1 WaitStatus.code := by
    intro a
    unfold Attempt.code
    cases a.status <;> rfl
  cases ha : as.getLast? with
  | none =>
    rw [ha, Option.map_none, Option.map_eq_none_iff] at hstatuses
    rw [hstatuses]
    rfl
  | some a =>
    rw [ha] at hstatuses
    obtain ⟨x, hx, hstatus⟩ := Option.map_eq_some_iff.1 hstatuses
    rw [hx]
    exact (congrArg (·.elim 1 WaitStatus.code) hstatus).trans (hcode a).symm

theorem ExitCode.toNat_status (code : Int32) : ((status code).toNat : Int) = code.toInt % 256 := by
  have h : (status code).toNat = code.toBitVec.toNat % 256 := by
    simp [status]
    rfl
  rw [h, Int32.toInt, BitVec.toInt_eq_toNat_cond]
  have := code.toBitVec.isLt
  split <;> omega

end Codes

section Exits

variable {commands : List Command} {terminal : UInt8}

/-- Whether `c` is the last `exit` among some commands, at the place `i`. -/
def LastExit (commands : List Command) (i : Nat) (c : Command) : Prop :=
  commands[i]? = some c ∧ c.name = Bytes.ofAscii "exit" ∧
    ∀ j d, i < j → commands[j]? = some d → d.name ≠ Bytes.ofAscii "exit"

theorem pipelineStatus_of_lastExit {i : Nat} {c : Command} (h : LastExit commands i c) :
    pipelineStatus commands terminal = ExitCode.status (ExitCode.ofArguments c.arguments) := by
  obtain ⟨hi, hc, hlater⟩ := h
  obtain ⟨hlt, rfl⟩ := List.getElem?_eq_some_iff.1 hi
  have hexit : commands[i].builtin? = some .exit := Command.builtin?_eq_exit_iff.2 hc
  have hnone : (commands.drop (i + 1)).filter (fun c => c.builtin? = some .exit) = [] := by
    rw [List.filter_eq_nil_iff]
    intro d hd
    obtain ⟨j, hj⟩ := List.mem_iff_getElem?.1 hd
    rw [List.getElem?_drop] at hj
    simpa [Command.builtin?_eq_exit_iff] using hlater _ d (by omega) hj
  have hsplit : commands = commands.take i ++ commands[i] :: commands.drop (i + 1) := by
    rw [← List.drop_eq_getElem_cons hlt, List.take_append_drop]
  have hfilter : (commands.filter fun c => c.builtin? = some .exit) =
      (commands.take i).filter (fun c => c.builtin? = some .exit) ++ [commands[i]] := by
    conv => lhs; rw [hsplit]
    rw [List.filter_append, List.filter_cons_of_pos (by simpa using hexit), hnone]
  rw [pipelineStatus, hfilter, List.getLast?_concat]

theorem pipelineStatus_of_forall (h : ∀ c ∈ commands, c.name ≠ Bytes.ofAscii "exit") :
    pipelineStatus commands terminal = terminal := by
  have hnone : (commands.filter fun c => c.builtin? = some .exit) = [] := by
    rw [List.filter_eq_nil_iff]
    intro c hc
    simpa [Command.builtin?_eq_exit_iff] using h c hc
  rw [pipelineStatus, hnone]
  rfl

end Exits

section Unlaunched

variable {s : State} {c : Command} {b : Bool} {links : List Link} {es : List Event}

theorem calls_stage_external {l : CommandLine} {i : Nat} {Q : Bool → Empty → Prop}
    (hc : c.builtin? = none) :
    (stage s l links i c).Calls (fun _ c => ∀ n, c = .exit n → n = 1) Q true := by
  rw [stage, calls_bind, calls_defaultBrokenPipe]
  refine ⟨fun n he => (by cases he), ?_⟩
  have hone : ∀ n, Syscall.exit 1 = .exit n → n = 1 := fun n he => by
    injection he with he
    exact he.symm
  refine calls_stageChild_of_runInChild (fun d h n he => absurd he (h.ne_exit n)) hone ?_
  refine calls_runInChild_external hc fun d h n he => ?_
  subst he
  exact h

end Unlaunched

section LastStage

variable {ι ρ : Type} {m : Machine ι} {s₀ t : System ι ρ} {ss : List (System ι ρ)}
  {H : Pid → Past} {sh q : Pid} {p₀ : Process ι ρ} {s : State} {l : CommandLine}
  {links : List Link} {rest : UInt8 → Program ρ} {i : Nat} {k : UInt8}

variable (h : History m s₀ ss H t) (hs : s₀.Numbered) (hp : s₀.process? sh = some p₀)
  (hc : p₀.control = .code (runStages s l links >>= rest)) (hi : i < l.commands.length)
  (ho : outcome? ss q = some (.exited k))
include h hs hp hc hi ho

theorem exited_of_unlaunched (hstage : (H q).OfStage sh i) (himage : (H q).image = none)
    (hb : l.commands[i].builtin? = none) : k = 1 := by
  obtain ⟨hroot, pids, gs, rfl, hcode⟩ := hstage
  obtain ⟨code, hexit, rfl⟩ := h.exits hs (hroot.symm ▸ hp) hc ho himage
  rw [hcode, List.append_cons, (reaches_stage hi).exits_append_iff, exits_never_iff] at hexit
  have hcalls : (stage s l links pids.length l.commands[pids.length]).Calls
      (fun _ c => ∀ n, c = .exit n → n = 1) (fun _ _ => True) true := calls_stage_external hb
  rw [hcalls.of_exits hexit code rfl]
  rfl

theorem exited_of_unwired {x : SetupError} {gs : List Event}
    (hw : (H q).Wired sh links l.redirect i (.error x) gs) : k = 1 := by
  obtain ⟨-, H₁, s₁, y, hrun, hy, he, hpast⟩ := h.ended_of_outcome hs ho
  rw [hpast] at hw
  have hexec := hrun.executes hs hy (hw.1.symm ▸ hp) hc
  -- its code has come no further than its exit
  have hstuck : ∀ {z : Program ρ}, (runStages s l links >>= rest).Reaches (H₁ q).code z →
      z = never (exit 1) := by
    intro z hz
    obtain ⟨c, y, -, rfl, hy⟩ := hw.command hi hz
    obtain ⟨-, rfl⟩ | ⟨r, -⟩ := reaches_ask_iff.1 hy
    · rfl
    · exact r.elim
  have himage : (H₁ q).image = none := by
    by_contra hne
    obtain ⟨path, argv, again, k, hr⟩ := hexec.became hne
    cases hstuck hr
  obtain ⟨code, ⟨again, k, hr⟩, rfl⟩ := hexec.exited _ he himage
  cases hstuck hr
  rfl

end LastStage

/-- The status of a pipeline of some commands, if `a` is the wait for the last of its stages. -/
structure StatusFor (commands : List Command) (a : Attempt) (status : UInt8) : Prop where
  exit : ∀ i c, LastExit commands i c →
    (status.toNat : Int) = (ExitCode.ofArguments c.arguments).toInt % 256
  exited : (∀ c ∈ commands, c.name ≠ Bytes.ofAscii "exit") →
    ∀ k, a.reply = .ok (.exited k) → status = k
  signaled : (∀ c ∈ commands, c.name ≠ Bytes.ofAscii "exit") →
    ∀ n, a.reply = .ok (.signaled n) → Signal.isNamed n = true → status.toNat = 128 + n
  unknown : (∀ c ∈ commands, c.name ≠ Bytes.ofAscii "exit") →
    ∀ e, a.status = .error e → status = 1

theorem statusFor (commands : List Command) (a : Attempt) :
    StatusFor commands a (pipelineStatus commands a.code) where
  exit i c hlast := by
    rw [pipelineStatus_of_lastExit hlast]
    exact ExitCode.toNat_status _
  exited hnone k hk := by
    rw [pipelineStatus_of_forall hnone]
    exact Attempt.code_of_exited hk
  signaled hnone n hn hnamed := by
    rw [pipelineStatus_of_forall hnone]
    exact Attempt.code_of_signaled hn hnamed
  unknown hnone e he := by
    rw [pipelineStatus_of_forall hnone]
    exact Attempt.code_of_error he

section Pipelines

variable {σ : Type} {source : σ → Program (Except Errno Link × σ)} {st st₁ : σ} {s : State}
  {l : CommandLine} {es fs : List Event} {ls : List Link} {pids : List Pid} {as : List Attempt}
  {status : UInt8}

theorem returns_pipeline_iff (h : Link.Opens source st es ls st₁)
    (hn : ls.length + 1 = l.commands.length) (hpids : pids.length = l.commands.length) :
    (runPipelineWith source st s l).Returns (es ++ forks pids ++ fs) status ↔
      ∃ as : List Attempt, as.map Attempt.child = pids ∧ Concluding ls as fs ∧
        status = pipelineStatus l.commands (as.getLast?.elim 1 Attempt.code) := by
  have hforked := (returns_spawnStages s ls l.redirect hpids).bind (conclude l ls)
  have hreach := (reaches_runStages h hn).trans hforked
  rw [done_bind, ← hpids] at hreach
  rw [Returns, hreach.append_iff]
  refine returns_conclude_iff.trans (exists_congr fun as => ?_)
  rw [(JobBuilder.for_build pids).children]
  refine and_congr_right fun has => ?_
  rw [JobBuilder.code_learn has]

theorem exists_last (hpids : pids.length = l.commands.length) (hl : l.commands ≠ [])
    (has : as.map Attempt.child = pids) : ∃ a, as.getLast? = some a := by
  cases ha : as.getLast? with
  | some a => exact ⟨a, rfl⟩
  | none =>
    obtain rfl := List.getLast?_eq_none_iff.1 ha
    subst has
    exact absurd (List.length_eq_zero_iff.1 hpids.symm) hl

end Pipelines

variable {ι ρ : Type}

/-- The status of a pipeline. Without commands it is 0, and nothing is done. Otherwise, once all
links have been opened and all stages forked, every stage is waited for before there is a status.
Whatever the waits say, the status is what the last `exit` of the line asks for, modulo 256; without
one it is what the wait for the last stage says, and 1 if that has failed. So only the last stage
matters, and that one ends with 1 if it could not be wired or its program not be launched. -/
theorem pipeline_status {σ : Type} (source : σ → Program (Except Errno Link × σ)) (st : σ)
    (s : State) (l : CommandLine) :
    (l.commands = [] → runPipelineWith source st s l = done 0) ∧
    ∀ es ls st₁ pids, Link.Opens source st es ls st₁ → ls.length + 1 = l.commands.length →
      pids.length = l.commands.length →
      (∀ fs status, (runPipelineWith source st s l).Returns (es ++ forks pids ++ fs) status →
        ∃ as : List Attempt, as.map Attempt.child = pids ∧ Concluding ls as fs) ∧
      (∀ as fs, as.map Attempt.child = pids → Concluding ls as fs →
        ∃ a status, as.getLast? = some a ∧ StatusFor l.commands a status ∧
          (runPipelineWith source st s l).Returns (es ++ forks pids ++ fs) status ∧
          ∀ es' ls' st₁' pids' as' fs', Link.Opens source st es' ls' st₁' →
            ls'.length + 1 = l.commands.length → pids'.length = l.commands.length →
            as'.map Attempt.child = pids' → Concluding ls' as' fs' →
            as'.getLast?.map Attempt.reply = some a.reply →
            (runPipelineWith source st s l).Returns (es' ++ forks pids' ++ fs') status) ∧
      ∀ (m : Machine ι) (s₀ t : System ι ρ) ss H sh p₀ (rest : UInt8 → Program ρ),
        s₀.Numbered → s₀.process? sh = some p₀ →
        p₀.control = .code (runStages s l ls >>= rest) → History m s₀ ss H t →
        ∀ as fs more a e, as.map Attempt.child = pids → Concluding ls as fs →
          (H sh).code = forks pids ++ fs ++ more → as.getLast? = some a → a.reply = .ok e →
          outcome? ss a.child = some e ∧ (H a.child).OfStage sh ls.length ∧
            (((H a.child).image = none ∧ ∃ c, l.commands.getLast? = some c ∧ c.builtin? = none) ∨
              (∃ x gs, (H a.child).Wired sh ls l.redirect ls.length (.error x) gs) →
              ∀ k, e = .exited k → k = 1) := by
  refine ⟨fun hl => if_pos hl, fun es ls st₁ pids h hn hpids => ⟨?_, ?_, ?_⟩⟩
  · intro fs status hret
    obtain ⟨as, has, hfs, -⟩ := (returns_pipeline_iff h hn hpids).1 hret
    exact ⟨as, has, hfs⟩
  · intro as fs has hfs
    have hl : l.commands ≠ [] := by
      rintro hl
      simp [hl] at hn
    obtain ⟨a, ha⟩ := exists_last hpids hl has
    refine ⟨a, _, ha, statusFor l.commands a,
      (returns_pipeline_iff h hn hpids).2 ⟨as, has, hfs, by rw [ha]; rfl⟩, ?_⟩
    intro es' ls' st₁' pids' as' fs' h' hn' hpids' has' hfs' hlast
    obtain ⟨a', ha', hreply⟩ := Option.map_eq_some_iff.1 hlast
    have hcode : a'.code = a.code := by
      rw [Attempt.code, Attempt.code, Attempt.status, Attempt.status, hreply]
    exact (returns_pipeline_iff h' hn' hpids').2 ⟨as', has', hfs', by rw [ha', ← hcode]; rfl⟩
  · intro m s₀ t ss H sh p₀ rest hs hp hc hist as fs more a e has hfs hcode ha he
    obtain ⟨cs, ws, rfl, -, -⟩ := hfs
    have hmem : a ∈ as := List.mem_of_getLast? ha
    have hevents : ∀ ev ∈ as.flatMap Attempt.events, ev ∈ (H sh).code := by
      intro ev hev
      rw [hcode]
      simp [hev]
    have ho := hist.outcome_of_attempt hs hevents hmem he
    have hlast : pids[ls.length]? = some a.child := by
      rw [← has, List.getElem?_map]
      rw [List.getLast?_eq_getElem?] at ha
      have hlen : as.length = l.commands.length := by
        rw [← hpids, ← has, List.length_map]
      rw [hlen, ← hn, Nat.add_sub_cancel] at ha
      rw [ha]
      rfl
    have hforks : (H sh).code =
        [] ++ forks pids ++ (cs ++ as.flatMap Attempt.events ++ ws ++ more) := by
      rw [hcode, List.append_assoc, List.nil_append]
    obtain ⟨hroot, gs, hgs⟩ := hist.child_of_forks (hs sh p₀ hp) hforks hlast
    have hlt : ls.length < l.commands.length := by omega
    have hstage : (H a.child).OfStage sh ls.length :=
      ⟨hroot, pids.take ls.length, gs, by simp [hpids]; omega, by simpa using hgs.symm⟩
    refine ⟨ho, hstage, ?_⟩
    rintro (⟨himage, c, hlc, hb⟩ | ⟨x, gs, hw⟩) k rfl
    · rw [List.getLast?_eq_getElem?, ← hn, Nat.add_sub_cancel,
        List.getElem?_eq_getElem hlt] at hlc
      obtain rfl := Option.some.inj hlc
      exact exited_of_unlaunched hist hs hp hc hlt ho hstage himage hb
    · exact exited_of_unwired hist hs hp hc hlt ho hw

open TwoStages in
/-- Neither stage of `cat | cat` can be launched: the status is 1, whatever the first one exits
with. With `exit 259` in place of the first it is 3, also if both waits fail. -/
theorem pipeline_status_of_two :
    let source : Unit → Program (Except Errno Link × Unit) := fun () => do
      return (← Link.create, ())
    let s := State.ofSearchPath none
    let opened : List Event := [⟨.pipe, .ok (3, 4)⟩]
    let closed : List Event := [⟨.close 3, .ok ()⟩, ⟨.close 4, .ok ()⟩]
    let exit259 : Command := ⟨Bytes.ofAscii "exit", [Bytes.ofAscii "259"]⟩
    let text := Bytes.ofAscii "msh: wait: ECHILD: No child processes\n"
    (∃ ss H t, History machine boot ss H t ∧ outcome? ss 3 = some (.exited 1) ∧
      (H 3).OfStage 1 1 ∧ (H 3).image = none) ∧
    (∀ k, (runPipelineWith source () s line).Returns (opened ++ forks [2, 3] ++
      (closed ++ [⟨.wait 2, .ok (.exited k)⟩, ⟨.wait 3, .ok (.exited 1)⟩])) 1) ∧
    (runPipelineWith source () s ⟨[.command exit259, .pipe, .command cat], none⟩).Returns
      (opened ++ forks [2, 3] ++ (closed ++ [⟨.wait 2, .error Errno.noChild⟩,
        ⟨.wait 3, .error Errno.noChild⟩] ++ [⟨.write Fd.stderr text, .ok 0⟩])) 3 := by
  intro source s opened closed exit259 text
  have hpipe : (source ()).Returns opened (.ok ⟨3, 4⟩, ()) := .next rfl (.refl _)
  have hopen : Link.Opens source () opened links () := .cons hpipe (.nil ())
  obtain ⟨-, hcat⟩ := pipeline_status (ι := Unit) (ρ := UInt8) source () s line
  obtain ⟨-, hends, hlast⟩ := hcat _ _ _ [2, 3] hopen rfl rfl
  refine ⟨?_, ?_, ?_⟩
  · obtain ⟨H, t, hrun, hcode, himage⟩ := run_waited
    obtain ⟨ss, h⟩ := hrun.exists_history
    have hcontrol : shell.control = .code (runStages s line links >>= done) :=
      congrArg Control.code (bind_done _).symm
    let as : List Attempt :=
      [⟨2, 1, .ok (.exited 1), nofun⟩, ⟨3, 0, .ok (.exited 1), nofun⟩]
    obtain ⟨ho, hstage, -⟩ := hlast machine boot t ss H 1 shell done numbered rfl hcontrol h as _ []
      _ _ rfl ⟨closed, [], rfl, .call (.call .nil), .nil⟩ hcode rfl rfl
    exact ⟨ss, H, t, h, ho, hstage, himage⟩
  · intro k
    let as (k : UInt8) : List Attempt :=
      [⟨2, 0, .ok (.exited k), nofun⟩, ⟨3, 0, .ok (.exited 1), nofun⟩]
    have hconcluding : ∀ k, Concluding links (as k)
        (closed ++ [⟨.wait 2, .ok (.exited k)⟩, ⟨.wait 3, .ok (.exited 1)⟩]) :=
      fun k => ⟨closed, [], rfl, .call (.call .nil), .nil⟩
    obtain ⟨a, status, ha, hfor, -, hother⟩ := hends (as 1) _ rfl (hconcluding 1)
    obtain rfl := Option.some.inj ha
    obtain rfl := hfor.exited (by decide) 1 rfl
    exact hother _ _ _ _ (as k) _ hopen rfl rfl rfl (hconcluding k) rfl
  · obtain ⟨-, hexit⟩ := pipeline_status (ι := Unit) (ρ := UInt8) source () s
      ⟨[.command exit259, .pipe, .command cat], none⟩
    obtain ⟨-, hends, -⟩ := hexit _ _ _ [2, 3] hopen rfl rfl
    let as : List Attempt :=
      [⟨2, 0, .error Errno.noChild, nofun⟩, ⟨3, 0, .error Errno.noChild, nofun⟩]
    have hcomplaint : Enacts [complaint "wait" Errno.noChild] [⟨.write Fd.stderr text, .ok 0⟩] :=
      enacts_say_iff.2 (.stuck (by decide))
    obtain ⟨a, status, -, hfor, hret, -⟩ := hends as (closed ++ [⟨.wait 2, .error Errno.noChild⟩,
        ⟨.wait 3, .error Errno.noChild⟩] ++ [⟨.write Fd.stderr text, .ok 0⟩]) rfl
      ⟨closed, _, rfl, .call (.call .nil), hcomplaint⟩
    have hlastExit : LastExit [exit259, cat] 0 exit259 := by
      refine ⟨rfl, rfl, fun j d hj hd => ?_⟩
      obtain ⟨j, rfl⟩ : ∃ i, j = i + 1 := ⟨j - 1, by omega⟩
      have hd : d ∈ [cat] := List.mem_of_getElem? hd
      rw [List.mem_singleton.1 hd]
      decide
    have h3 := hfor.exit 0 exit259 hlastExit
    have hmod : (ExitCode.ofArguments exit259.arguments).toInt % 256 = 3 := by decide
    have hstatus : status = 3 := by
      rw [hmod] at h3
      have h3 : status.toNat = 3 := by omega
      exact UInt8.toNat_inj.1 h3
    exact hstatus ▸ hret

end PipeShell
