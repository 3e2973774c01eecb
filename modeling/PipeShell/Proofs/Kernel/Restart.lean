import PipeShell.Proofs.Kernel.Ancestry

/-! The rest of a run as a run of its own. What a step does not depend on what has happened before
it, so it can be taken for the first one, and a run can be begun anew at any of its moments. Main
statements: the past after that is the past before it with what the rest alone has added
(`Move.restart`, `Leads.restart`); a step that adds something to the past of a process is a reply to
the call of that process (`Move.reply_of_code`); and for every event of the code of a process there
is the moment of the run at which the process was given that reply (`Run.moment`). -/
namespace PipeShell

variable {ι ρ : Type} {m : Machine ι} {s s' : System ι ρ} {H H' G : Pid → Past} {q pid sh : Pid}
  {p : Process ι ρ}

namespace Past

/-- Whether `g` comes between the pasts `h` and `h'` of a process. -/
def Between (h g h' : Past) : Prop :=
  h'.code = h.code ++ g.code ∧ (h'.image = none → h.image = none)

theorem between_start (h : Past) (pid : Pid) : h.Between (start pid) h :=
  ⟨(List.append_nil _).symm, id⟩

variable {h g h' : Past}

theorem Between.record (hb : h.Between g h') (p : Process ι ρ) (e : Event) :
    h.Between (g.record p e) (h'.record p e) := by
  obtain ⟨hcode, himage⟩ := hb
  unfold Past.record
  split
  · refine ⟨?_, himage⟩
    show h'.code ++ [e] = h.code ++ (g.code ++ [e])
    rw [hcode, List.append_assoc]
  · exact ⟨hcode, fun hi => by cases hi⟩

theorem Between.become (hb : h.Between g h') : h.Between g.become h'.become :=
  ⟨hb.1, fun hi => by cases hi⟩

theorem Between.update {F : Pid → Past} {g' : Past} (hq : h.Between (F q) (H q))
    (hpid : q = pid → h.Between g' h') :
    h.Between (Function.update F pid g' q) (Function.update H pid h' q) := by
  rw [Function.update_apply, Function.update_apply]
  split
  · exact hpid ‹_›
  · exact hq

theorem code_of_record {es fs : List Event} {e ev : Event}
    (hcode : (h.record p ev).code = es ++ e :: fs) (hi : (h.record p ev).image = none) :
    (∃ fs', fs = fs' ++ [ev] ∧ h.code = es ++ e :: fs' ∧ h.image = none) ∨
      e = ev ∧ h = ⟨h.root, es, none⟩ ∧ p.control.isCode = true := by
  unfold record at hcode hi
  split at hi
  · rw [if_pos ‹_›] at hcode
    obtain rfl | ⟨fs', x, rfl⟩ := fs.eq_nil_or_concat
    · obtain ⟨rfl, he⟩ := List.append_inj' hcode rfl
      refine .inr ⟨(List.cons.inj he).1.symm, ?_, ‹_›⟩
      rw [← show h.image = none from hi]
    · rw [List.concat_eq_append, ← List.cons_append, ← List.append_assoc] at hcode
      obtain ⟨hes, he⟩ := List.append_inj' hcode rfl
      obtain rfl := (List.cons.inj he).1
      exact .inl ⟨fs', List.concat_eq_append, hes, hi⟩
  · cases hi

end Past

theorem System.Follows.descriptor {s₁ : System ι ρ} {p' x : Process ι ρ} {c : Control ι ρ} {fd : Fd}
    {d : Descriptor} (h : Follows s s₁ pid p') (hx : (s₁.resume pid c).process? q = some x)
    (hd : x.descriptors.get? fd = some d) :
    ∃ z, (if q = pid then z = p' else s.process? q = some z) ∧
      z.descriptors.get? fd = some d := by
  obtain ⟨y, hy, hxy⟩ := process?_resume hx
  obtain ⟨z, hz, hyz⟩ := h q y hy
  have hdy : y.descriptors.get? fd = some d := by
    split at hxy
    · split at hxy <;> (subst hxy; exact hd)
    · subst hxy
      exact hd
  have ht : Touched z y := by
    obtain rfl | ⟨n, rfl⟩ := hyz
    · exact .inl rfl
    · exact touched_signaled z n
  refine ⟨z, hz, ?_⟩
  obtain rfl | ⟨b, rfl⟩ | ⟨n, rfl⟩ := ht
  · exact hdy
  · exact hdy
  · cases hdy

namespace Move

theorem replay (hm : Move m H s H' s') (F : Pid → Past) : ∃ F', Move m F s F' s' ∧
    ∀ h q, q ≠ s.nextPid → Past.Between h (F q) (H q) → Past.Between h (F' q) (H' q) := by
  cases hm with
  | answered hp hn ha =>
    refine ⟨_, .answered hp hn ha, fun h q _ hb => hb.update ?_⟩
    rintro rfl
    exact hb.record _ _
  | refused hp hn hr =>
    refine ⟨_, .refused hp hn hr, fun h q _ hb => hb.update ?_⟩
    rintro rfl
    exact hb.record _ _
  | forked hp hn hf =>
    refine ⟨_, .forked hp hn hf, fun h q hq hb => ?_⟩
    rw [Function.update_of_ne hq, Function.update_of_ne hq]
    refine hb.update ?_
    rintro rfl
    exact hb.record _ _
  | became hp hn hf =>
    refine ⟨_, .became hp hn hf, fun h q _ hb => hb.update ?_⟩
    rintro rfl
    exact hb.become
  | exited hp hn => exact ⟨_, .exited hp hn, fun _ _ _ hb => hb⟩
  | broken hp hn hw hb => exact ⟨_, .broken hp hn hw hb, fun _ _ _ hb => hb⟩
  | signaled pid n => exact ⟨_, .signaled pid n, fun _ _ _ hb => hb⟩
  | outside hp ho hq hn => exact ⟨_, .outside hp ho hq hn, fun _ _ _ hb => hb⟩

theorem restart (hm : Move m H s H' s') : ∃ G, Move m Past.start s G s' ∧
    ∀ q, q ≠ s.nextPid → (H q).Between (G q) (H' q) := by
  obtain ⟨G, hG, hb⟩ := hm.replay Past.start
  exact ⟨G, hG, fun q hq => hb _ q hq (Past.between_start _ _)⟩

theorem fork_mem (hm : Move m Past.start s G s') (hs : s.Numbered) (hq : q ≠ (G q).root) :
    (⟨.fork, .ok (.parent q)⟩ : Event) ∈ (G (G q).root).events := by
  have hself : ∀ {pid : Pid} {past : Past}, past.root = pid →
      q = (Function.update Past.start pid past q).root := by
    intro pid past hroot
    rw [Function.update_apply]
    split
    · rename_i he
      rw [hroot, he]
    · rfl
  cases hm with
  | answered hp hn ha => exact (hq (hself (Past.root_record _ _ _))).elim
  | refused hp hn hr => exact (hq (hself (Past.root_record _ _ _))).elim
  | became hp hn hf => exact (hq (hself rfl)).elim
  | exited | broken | signaled | outside => exact absurd rfl hq
  | @forked pid p k hp hn hf =>
    have hne : pid ≠ s.nextPid := Nat.ne_of_lt (hs pid p hp)
    by_cases hnew : q = s.nextPid
    · subst hnew
      have hroot : ((Past.start pid).record p birth).root = pid := Past.root_record _ _ _
      rw [Function.update_self, hroot, Function.update_of_ne hne, Function.update_self]
      simp only [Past.record, Past.events]
      split <;> simp
    · rw [Function.update_of_ne hnew] at hq
      exact (hq (hself (Past.root_record _ _ _))).elim

theorem reply_of_code {e : Event} (hm : Move m Past.start s G s') (hq : q ≠ s.nextPid)
    (he : e ∈ (G q).code) : ∃ p k, s.process? q = some p ∧ p.next? m = some ⟨e.call, k⟩ ∧
      ((∃ s₁, s.answer q p e.call = some (e.reply, s₁) ∧ s' = s₁.resume q (k e.reply)) ∨
        Refusal e.call e.reply ∨ e.call = .fork) := by
  have hself : ∀ {pid : Pid} {p : Process ι ρ} {ev : Event},
      e ∈ (Function.update Past.start pid ((Past.start pid).record p ev) q).code →
        q = pid ∧ e = ev := by
    intro pid p ev he
    rw [Function.update_apply] at he
    split at he
    · unfold Past.record at he
      split at he
      · exact ⟨‹_›, List.mem_singleton.1 he⟩
      · cases he
    · cases he
  cases hm with
  | answered hp hn ha =>
    obtain ⟨rfl, rfl⟩ := hself he
    exact ⟨_, _, hp, hn, .inl ⟨_, ha, rfl⟩⟩
  | refused hp hn hr =>
    obtain ⟨rfl, rfl⟩ := hself he
    exact ⟨_, _, hp, hn, .inr (.inl hr)⟩
  | forked hp hn hf =>
    rw [Function.update_of_ne hq] at he
    obtain ⟨rfl, rfl⟩ := hself he
    exact ⟨_, _, hp, hn, .inr (.inr rfl)⟩
  | became hp hn hf =>
    rw [Function.update_apply] at he
    split at he <;> cases he
  | exited | broken | signaled | outside => cases he

/-- An event of the code of a process that has become no program is older than the step, or the
step is the reply. -/
theorem older_or_answered {es fs : List Event} {e : Event} (hm : Move m H s H' s')
    (hcode : (H' q).code = es ++ e :: fs) (ho : Own (e :: fs)) (hi : (H' q).image = none)
    (hr : ¬Refusal e.call e.reply) (hf : e.call ≠ .fork) :
    (∃ fs', (H q).code = es ++ e :: fs' ∧ Own (e :: fs') ∧ (H q).image = none) ∨
      ∃ p k s₁, s.process? q = some p ∧ p.control.isCode = true ∧ p.next? m = some ⟨e.call, k⟩ ∧
        s.answer q p e.call = some (e.reply, s₁) ∧ H q = ⟨(H q).root, es, none⟩ ∧
        H' = Function.update H q ⟨(H q).root, es ++ [e], none⟩ ∧ s' = s₁.resume q (k e.reply) := by
  have hself : ∀ {p : Process ι ρ} {ev : Event}, H' q = (H q).record p ev →
      (∃ fs', (H q).code = es ++ e :: fs' ∧ Own (e :: fs') ∧ (H q).image = none) ∨
        e = ev ∧ H q = ⟨(H q).root, es, none⟩ ∧ p.control.isCode = true := by
    intro p ev hH
    rw [hH] at hcode hi
    obtain ⟨fs', rfl, hold, hi⟩ | h := Past.code_of_record hcode hi
    · exact .inl ⟨fs', hold, (own_append.1 ho).1, hi⟩
    · exact .inr h
  have hother : H' q = H q → ∃ fs', (H q).code = es ++ e :: fs' ∧ Own (e :: fs') ∧
      (H q).image = none := fun hH => ⟨fs, hH ▸ hcode, ho, hH ▸ hi⟩
  cases hm with
  | @answered s₁ pid p c k r hp hn ha =>
    by_cases hq : q = pid
    · subst hq
      obtain h | ⟨rfl, hpast, hc⟩ := hself (Function.update_self _ _ _)
      · exact .inl h
      · refine .inr ⟨p, k, s₁, hp, hc, hn, ha, hpast, ?_, rfl⟩
        rw [hpast, Past.record, if_pos hc]
    · exact .inl (hother (Function.update_of_ne hq _ _))
  | @refused pid p c k r hp hn hrefused =>
    by_cases hq : q = pid
    · subst hq
      obtain h | ⟨rfl, -⟩ := hself (Function.update_self _ _ _)
      · exact .inl h
      · exact absurd hrefused hr
    · exact .inl (hother (Function.update_of_ne hq _ _))
  | @forked pid p k hp hn hfork =>
    by_cases hnew : q = s.nextPid
    · -- the last event of the new process is its birth
      subst hnew
      rw [Function.update_self] at hcode hi
      obtain ⟨fs', rfl, -⟩ | ⟨rfl, -⟩ := Past.code_of_record hcode hi
      · cases ho birth (by simp)
      · cases ho birth List.mem_cons_self
    · by_cases hq : q = pid
      · subst hq
        obtain h | ⟨rfl, -⟩ := hself
          ((Function.update_of_ne hnew _ _).trans (Function.update_self _ _ _))
        · exact .inl h
        · exact absurd rfl hf
      · exact .inl (hother ((Function.update_of_ne hnew _ _).trans (Function.update_of_ne hq _ _)))
  | @became pid p path name argv argv' k hp hn hprogram =>
    by_cases hq : q = pid
    · subst hq
      rw [Function.update_self] at hi
      cases hi
    · exact .inl (hother (Function.update_of_ne hq _ _))
  | exited | broken | signaled | outside => exact .inl (hother rfl)

end Move

/-- Whether a run that has come to the state `s`, with the pasts `G`, may go on to `t`. -/
inductive Leads (m : Machine ι) (G : Pid → Past) (s : System ι ρ) :
    (Pid → Past) → System ι ρ → Prop
  | refl : Leads m G s G s
  | move {H H' : Pid → Past} {s₁ s' : System ι ρ} (h : Leads m G s H s₁)
      (hm : Move m H s₁ H' s') : Leads m G s H' s'

variable {s₀ s₁ s₂ t : System ι ρ} {x : Process ι ρ} {es fs : List Event} {e : Event}

theorem Leads.restart (h : Leads m G s H t) : ∃ F, Run m s F t ∧
    ∀ q < s.nextPid, (G q).Between (F q) (H q) := by
  induction h with
  | refl => exact ⟨_, .start, fun q _ => Past.between_start _ _⟩
  | move _ hm ih =>
    obtain ⟨F, hF, hb⟩ := ih
    obtain ⟨F', hF', hb'⟩ := hm.replay F
    refine ⟨F', hF.move hF', fun q hq => hb' _ q ?_ (hb q hq)⟩
    exact Nat.ne_of_lt (Nat.lt_of_lt_of_le hq hF.native.1)

/-- The moment of a run from `s₀` to `t` at which code of process `pid`, having gone through the
events `es`, was given the reply of the event `e`: the process was `x` in the state `s₁`, and the
answer left `s₂`. -/
structure Moment (m : Machine ι) (s₀ : System ι ρ) (H : Pid → Past) (t : System ι ρ) (pid : Pid)
    (es : List Event) (e : Event) (x : Process ι ρ) (s₁ s₂ : System ι ρ) : Prop where
  process : s₁.process? pid = some x
  code : x.control.isCode = true
  answer : s₁.answer pid x e.call = some (e.reply, s₂)
  leads : ∃ G k, Run m s₀ G s₁ ∧ G pid = ⟨(H pid).root, es, none⟩ ∧
    x.next? m = some ⟨e.call, k⟩ ∧ Leads m (Function.update G pid ⟨(H pid).root, es ++ [e], none⟩)
      (s₂.resume pid (k e.reply)) H t

theorem Moment.lt_nextPid (hm : Moment m s₀ H t pid es e x s₁ s₂) (hs : s₀.Numbered) :
    pid < t.nextPid := by
  obtain ⟨G, k, hrun, -, hn, hleads⟩ := hm.leads
  obtain ⟨F, hF, -⟩ := hleads.restart
  have hanswered : Move m G s₁ _ (s₂.resume pid (k e.reply)) := .answered hm.process hn hm.answer
  calc pid < s₁.nextPid := hrun.numbered hs pid x hm.process
    _ ≤ (s₂.resume pid (k e.reply)).nextPid := hanswered.nextPid_le
    _ ≤ t.nextPid := hF.native.1

/-- What code has been told it has been told at some moment, unless that was a refusal. -/
theorem Run.moment (h : Run m s₀ H t) (hs : s₀.Numbered)
    (hcode : (H pid).code = es ++ e :: fs) (ho : Own (e :: fs)) (hi : (H pid).image = none)
    (hr : ¬Refusal e.call e.reply) (hf : e.call ≠ .fork) :
    ∃ x s₁ s₂, Moment m s₀ H t pid es e x s₁ s₂ := by
  obtain ⟨ss, hhistory⟩ := h.exists_history
  clear h
  induction hhistory generalizing fs with
  | start => cases es <;> cases hcode
  | @move ss H H' s s' h hm ih =>
    obtain ⟨fs', hcode, ho, hi⟩ | ⟨x, k, s₂, hx, hc, hn, ha, hpast, rfl, rfl⟩ :=
      hm.older_or_answered hcode ho hi hr hf
    · obtain ⟨x, s₁, s₂, hmoment⟩ := ih hcode ho hi
      have hroot := (hm.code_cases (Nat.ne_of_lt (hmoment.lt_nextPid hs))).1
      obtain ⟨hx, hc, ha, G, k, hrun, hpast, hn, hleads⟩ := hmoment
      rw [← hroot] at hpast hleads
      exact ⟨x, s₁, s₂, hx, hc, ha, G, k, hrun, hpast, hn, hleads.move hm⟩
    · refine ⟨x, s, s₂, hx, hc, ha, H, k, h.run, ?_, hn, ?_⟩
      · rw [Function.update_self]
        exact hpast
      · rw [Function.update_self]
        exact .refl

namespace Moment

variable {path : Bytes} {mode : OpenMode} {fd g : Fd}
  (hm : Moment m s₀ H t pid es ⟨.openFile path mode, .ok fd⟩ x s₁ s₂)
include hm

theorem opened : ∃ i, s₁.files.openAs x.credentials x.directory path mode = .ok (s₂.files, i) ∧
    s₂.openFiles.get? s₁.openFiles.above = some (mode.openFile i) ∧
    ∃ position, t.openFiles.get? s₁.openFiles.above = some { mode.openFile i with position } := by
  obtain ⟨-, files, i, ho, hs₂⟩ := System.openPath_eq_ok (System.openPath_of_answer hm.answer)
  obtain ⟨G, k, -, -, -, hleads⟩ := hm.leads
  obtain ⟨F, hF, -⟩ := hleads.restart
  have hopen : s₂.openFiles.get? s₁.openFiles.above = some (mode.openFile i) := by
    rw [hs₂]
    exact (Table.get?_set _ _ _ _).trans (if_pos rfl)
  refine ⟨i, hs₂ ▸ ho, hopen, ?_⟩
  have hgrown := (System.grown_modifyProcess s₂ pid _).trans hF.grown
  exact hgrown.kept _ _ hopen

theorem descriptor (hs : s₀.Numbered) (hp : t.process? pid = some p)
    (hcode : (H pid).code = es ++ ⟨.openFile path mode, .ok fd⟩ :: fs)
    (hc : p.control.isCode = true) (hL : layout fs g = some ⟨.inherited fd, true⟩) :
    p.descriptors.get? g = some ⟨s₁.openFiles.above, false⟩ := by
  obtain ⟨-, files, i, -, hs₂⟩ := System.openPath_eq_ok (System.openPath_of_answer hm.answer)
  obtain ⟨G, k, hrun, -, hn, hleads⟩ := hm.leads
  have hanswered := hrun.answered hm.process hn hm.answer
  -- what is left of the run is a run of its own, in which `fs` are the events of the process
  obtain ⟨F, hF, hbetween⟩ := hleads.restart
  have hlt : pid < (s₂.resume pid (k (.ok fd))).nextPid :=
    Nat.lt_of_lt_of_le (hrun.numbered hs pid x hm.process)
      (Move.answered (H := G) hm.process hn hm.answer).nextPid_le
  have hfs : (F pid).code = fs := by
    obtain ⟨hF, -⟩ := hbetween pid hlt
    rw [Function.update_self, hcode, List.append_assoc] at hF
    exact (List.cons.inj (List.append_cancel_left hF)).2.symm
  obtain ⟨y₀, hy₀, hd⟩ := hF.descends (hanswered.numbered hs) hp
  rw [(hF.native.2 pid hlt).1] at hy₀
  have hfits := (hd.code hc).2.1 g
  rw [hfs, hL] at hfits
  have hy₀fd : y₀.descriptors.get? fd = some ⟨s₁.openFiles.above, true⟩ := by
    obtain ⟨y, hy, hyy₀⟩ := System.process?_resume hy₀
    rw [hs₂, System.process?_setProcess, if_pos rfl] at hy
    obtain rfl := Option.some.inj hy
    rw [if_pos rfl] at hyy₀
    have hset := Table.get?_set x.descriptors fd fd ⟨s₁.openFiles.above, true⟩
    rw [if_pos rfl] at hset
    split at hyy₀ <;> (subst hyy₀; exact hset)
  exact hfits.trans (by rw [hy₀fd]; rfl)

end Moment

theorem Moment.directory_eq {p₀ : Process ι ρ} (hm : Moment m s₀ H t pid es e x s₁ s₂)
    (hs : s₀.Numbered) (h₀ : s₀.process? (H pid).root = some p₀)
    (hes : ∀ path, (⟨.chdir path, .ok ()⟩ : Event) ∉ es) : x.directory = p₀.directory := by
  obtain ⟨G, k, hrun, hpast, -⟩ := hm.leads
  obtain ⟨p₁, h₁, hd⟩ := hrun.descends hs hm.process
  rw [hpast, h₀] at h₁
  obtain rfl := Option.some.inj h₁
  obtain hdirectory | ⟨path, hmem⟩ := hd.directory
  · exact hdirectory
  · rw [hpast, Past.events, Option.getD_none, List.append_nil] at hmem
    exact absurd hmem (hes path)

theorem Moment.credentials_eq {p₀ : Process ι ρ} (hm : Moment m s₀ H t pid es e x s₁ s₂)
    (hs : s₀.Numbered) (h₀ : s₀.process? (H pid).root = some p₀) :
    x.credentials = p₀.credentials := by
  obtain ⟨G, k, hrun, hpast, -⟩ := hm.leads
  exact hrun.credentials hs hm.process (hpast ▸ h₀)

end PipeShell
