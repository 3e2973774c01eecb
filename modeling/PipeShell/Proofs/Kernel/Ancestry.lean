import PipeShell.Proofs.Kernel.History

/-! What is passed on from process to process. Who runs code comes from a process that did, on whose
behalf he acts, and up to its birth a child has the past of the process that has forked it. What has
become of the code of a process remains so when it has become a program or is gone. Main statements:
that is so in every run (`Run.isCode`, `Run.credentials`, `Run.stems`, `Run.exists_executes`). -/
namespace PipeShell

variable {ι ρ : Type} {m : Machine ι} {s₀ s : System ι ρ} {H : Pid → Past} {sh pid : Pid}
  {p p₀ : Process ι ρ}

theorem preserved_isCode (m : Machine ι) (s₀ : System ι ρ) : Preserved m s₀
    fun _ _ h p => p.control.isCode = true →
      ∃ p₀, s₀.process? h.root = some p₀ ∧ p₀.control.isCode = true where
  start hp hc := ⟨_, hp, hc⟩
  grown _ h := h
  event _ h hn _ hc := by
    rw [Past.root_record]
    exact h ((isCode_of_next? hn _).1 ▸ hc)
  birth _ h hn hc := by
    rw [Past.root_record]
    exact h ((isCode_of_next? hn _).1 ▸ hc)
  become _ _ := nofun
  exited _ _ := nofun
  signaled _ := nofun
  stopped h := h

theorem Run.isCode (h : Run m s₀ H s) (hs : s₀.Numbered) (hp : s.process? pid = some p)
    (hc : p.control.isCode = true) :
    ∃ p₀, s₀.process? (H pid).root = some p₀ ∧ p₀.control.isCode = true :=
  h.invariant hs (preserved_isCode m s₀) pid p hp hc

theorem System.Effect.credentials_eq {s' : System ι ρ} {p' : Process ι ρ} {e : Event}
    (h : Effect s s' p e p') : p'.credentials = p.credentials := by
  cases h <;> rfl

theorem preserved_credentials (m : Machine ι) (s₀ : System ι ρ) : Preserved m s₀
    fun _ _ h p => ∀ p₀, s₀.process? h.root = some p₀ → p.credentials = p₀.credentials where
  start hp _ h₀ := congrArg _ (Option.some.inj (hp.symm.trans h₀))
  grown _ h := h
  event _ h _ he p₀ h₀ := he.credentials_eq.trans (h p₀ (Past.root_record _ _ _ ▸ h₀))
  birth _ h _ p₀ h₀ := h p₀ (Past.root_record _ _ _ ▸ h₀)
  become h _ := h
  exited h _ := h
  signaled h := h
  stopped h := h

theorem Run.credentials (h : Run m s₀ H s) (hs : s₀.Numbered) (hp : s.process? pid = some p)
    (h₀ : s₀.process? (H pid).root = some p₀) : p.credentials = p₀.credentials :=
  h.invariant hs (preserved_credentials m s₀) pid p hp p₀ h₀

/-- The past of a process tells of its code also when the process is gone. -/
theorem Run.exists_executes {prog : Program ρ} (h : Run m s₀ H s) (hs : s₀.Numbered)
    (h₀ : s₀.process? (H pid).root = some p₀) (hc : p₀.control = .code prog) :
    ∃ p : Process ι ρ, Executes prog (H pid) p := by
  have hupdate : ∀ {H : Pid → Past} {q : Pid} {past : Past},
      (s₀.process? (H pid).root = some p₀ → ∃ p : Process ι ρ, Executes prog (H pid) p) →
      (s₀.process? past.root = some p₀ → ∃ p : Process ι ρ, Executes prog past p) →
      s₀.process? (Function.update H q past pid).root = some p₀ →
      ∃ p : Process ι ρ, Executes prog (Function.update H q past pid) p := by
    intro H q past hold hnew h₀
    rw [Function.update_apply] at h₀ ⊢
    split
    · rw [if_pos ‹_›] at h₀
      exact hnew h₀
    · rw [if_neg ‹_›] at h₀
      exact hold h₀
  have hrecord : ∀ {H : Pid → Past} {s : System ι ρ} {q : Pid} {p : Process ι ρ} {c : Syscall}
      {k : c.Reply → Control ι ρ} {r : c.Reply}, Run m s₀ H s → s.process? q = some p →
      p.next? m = some ⟨c, k⟩ → s₀.process? ((H q).record p ⟨c, r⟩).root = some p₀ →
      ∃ p' : Process ι ρ, Executes prog ((H q).record p ⟨c, r⟩) p' := by
    intro H s q p c k r h hp hn h₀
    rw [Past.root_record] at h₀
    exact ⟨{ p with control := k r }, (h.executes hs hp h₀ hc).event hn rfl⟩
  induction h with
  | start => exact ⟨p₀, .start pid hc⟩
  | answered h hp hn ha ih => exact hupdate ih (hrecord h hp hn) h₀
  | refused h hp hn hr ih => exact hupdate ih (hrecord h hp hn) h₀
  | forked h hp hn hf ih => exact hupdate (hupdate ih (hrecord h hp hn)) (hrecord h hp hn) h₀
  | @became H s q _ _ _ _ _ _ h hp hn hf ih =>
    refine hupdate ih (fun hbecome => ?_) h₀
    have hself := Function.update_self q (H q).become H
    have hx := (h.became hp hn hf).executes hs
      ((System.process?_setProcess _ _ _ _).trans (if_pos rfl)) (hself.symm ▸ hbecome) hc
    exact ⟨_, hself ▸ hx⟩
  | exited _ _ _ ih => exact ih h₀
  | broken _ _ _ _ _ ih => exact ih h₀
  | signaled _ _ _ ih => exact ih h₀
  | outside _ _ _ _ _ ih => exact ih h₀

theorem Move.code_of_image {H' : Pid → Past} {s' : System ι ρ} (hm : Move m H s H' s')
    (hq : pid ≠ s.nextPid) (hi : (H pid).image ≠ none)
    (hc : ∀ x, s.process? pid = some x → x.control.isCode = false) :
    (H' pid).code = (H pid).code ∧ (H' pid).image ≠ none := by
  have hrecord : ∀ {q : Pid} {p : Process ι ρ} {e : Event}, s.process? q = some p →
      (Function.update H q ((H q).record p e) pid).code = (H pid).code ∧
        (Function.update H q ((H q).record p e) pid).image ≠ none := by
    intro q p e hp
    rw [Function.update_apply]
    split
    · subst pid
      rw [Past.record, hc p hp]
      exact ⟨rfl, Option.some_ne_none _⟩
    · exact ⟨rfl, hi⟩
  cases hm with
  | answered hp hn ha => exact hrecord hp
  | refused hp hn hr => exact hrecord hp
  | forked hp hn hf =>
    rw [Function.update_of_ne hq]
    exact hrecord hp
  | became hp hn hf =>
    rw [Function.update_apply]
    split
    · subst pid
      exact ⟨rfl, Option.some_ne_none _⟩
    · exact ⟨rfl, hi⟩
  | exited | broken | signaled | outside => exact ⟨rfl, hi⟩

/-- Whether the first birth in the past of every process that comes from process `sh` goes with a
fork of that process. -/
def Stems (sh : Pid) (H : Pid → Past) : Prop :=
  ∀ pid es gs, (H pid).root = sh → Own es → (H pid).code = es ++ birth :: gs →
    ∃ child fs, (H sh).code = es ++ ⟨.fork, .ok (.parent child)⟩ :: fs

theorem Stems.record {q : Pid} {e : Event} (h : Stems sh H) (he : e.isBirth = false)
    (p : Process ι ρ) : Stems sh (Function.update H q ((H q).record p e)) := by
  have hgrown : ∀ {es}, (∃ child fs, (H sh).code = es ++ ⟨.fork, .ok (.parent child)⟩ :: fs) →
      ∃ child fs, (Function.update H q ((H q).record p e) sh).code =
        es ++ ⟨.fork, .ok (.parent child)⟩ :: fs := by
    rintro es ⟨child, fs, hfs⟩
    rw [Function.update_apply]
    split
    · subst q
      unfold Past.record
      split
      · exact ⟨child, fs ++ [e], by simp [hfs]⟩
      · exact ⟨child, fs, hfs⟩
    · exact ⟨child, fs, hfs⟩
  intro pid es gs hroot ho hcode
  refine hgrown ?_
  rw [Function.update_apply] at hroot hcode
  split at hcode
  · rw [if_pos ‹_›, Past.root_record] at hroot
    unfold Past.record at hcode
    split at hcode
    · obtain ⟨rfl, -⟩ | ⟨gs', -, hcode⟩ := eq_or_of_concat_eq hcode
      · cases he
      · exact h q es gs' hroot ho hcode
    · exact h q es gs hroot ho hcode
  · rw [if_neg ‹_›] at hroot
    exact h pid es gs hroot ho hcode

theorem Stems.become (h : Stems sh H) (q : Pid) :
    Stems sh (Function.update H q (H q).become) := by
  intro pid es gs hroot ho hcode
  obtain ⟨hr, hc, -⟩ := Past.update_become H q pid
  rw [(Past.update_become H q sh).2.1]
  exact h pid es gs (hr ▸ hroot) ho (hc ▸ hcode)

theorem Run.stems (h : Run m s₀ H s) (hs : s₀.Numbered) (hsh : sh < s₀.nextPid) : Stems sh H := by
  induction h with
  | start =>
    intro pid es gs _ _ hcode
    cases es <;> cases hcode
  | answered h hp hn ha ih => exact ih.record (System.isBirth_of_answer ha) _
  | refused h hp hn hr ih => exact ih.record hr.isBirth _
  | @forked H s q p k h hp hn hf ih =>
    have hrec := ih.record (q := q) (e := ⟨.fork, .ok (.parent s.nextPid)⟩) rfl p
    have hne : sh ≠ s.nextPid := Nat.ne_of_lt (Nat.lt_of_lt_of_le hsh h.native.1)
    intro pid es gs hroot ho hcode
    rw [Function.update_of_ne hne]
    by_cases hpid : pid = s.nextPid
    · -- the new child: the birth is its own, or it has it from the process that has forked it
      subst hpid
      rw [Function.update_self] at hroot hcode
      rw [Past.root_record] at hroot
      obtain ⟨p₁, -, hd⟩ := h.descends hs hp
      have hcode' : (p.control.isCode = true ∧ (H q).code = es) ∨
          ∃ gs', (H q).code = es ++ birth :: gs' := by
        unfold Past.record at hcode
        split at hcode
        · obtain ⟨-, rfl⟩ | ⟨gs', -, hcode⟩ := eq_or_of_concat_eq hcode
          · exact .inl ⟨‹_›, rfl⟩
          · exact .inr ⟨gs', hcode⟩
        · exact .inr ⟨gs, hcode⟩
      obtain ⟨hc, rfl⟩ | ⟨gs', hcode'⟩ := hcode'
      · have hown : Own (H q).events := by
          rw [Past.events, (hd.code hc).1]
          simpa using ho
        obtain rfl : q = sh := (hd.own hown).trans hroot
        rw [Function.update_self, Past.record, if_pos hc]
        exact ⟨s.nextPid, [], rfl⟩
      · refine hrec q es (gs' ++ if p.control.isCode then
          [⟨.fork, .ok (.parent s.nextPid)⟩] else []) ?_ ho ?_
        · rw [Function.update_self, Past.root_record]
          exact hroot
        · rw [Function.update_self]
          unfold Past.record
          split <;> simp [hcode']
    · rw [Function.update_of_ne hpid] at hroot hcode
      exact hrec pid es gs hroot ho hcode
  | became _ _ _ _ ih => exact ih.become _
  | exited _ _ _ ih => exact ih
  | broken _ _ _ _ _ ih => exact ih
  | signaled _ _ _ ih => exact ih
  | outside _ _ _ _ _ ih => exact ih

end PipeShell
