import PipeShell.Proofs.Kernel.Ancestry
import PipeShell.Proofs.Kernel.Chronicle
import PipeShell.Proofs.Kernel.Sound

/-! What a process has open for output. Code that has opened one file for output has that file where
its layout says that it has a file open for output, and nowhere else. Main statements: so it is once
the file has been opened (`Fits.outputs`) and after every further step of the code (`Outputs.fits`),
what a program starts with (`Move.exec_of_image`), and that a program is started is written down
(`Deed.launched`, `Chronicle.image_of_launched`). -/
namespace PipeShell

variable {ι ρ : Type} {m : Machine ι} {s₀ s s' : System ι ρ} {H H' : Pid → Past} {q : Pid}
  {x y : Process ι ρ} {ns : List Note} {n : Nat}

theorem Control.isCode_iff {c : Control ι ρ} : c.isCode = true ↔ ∃ prog, c = .code prog := by
  cases c <;> simp [Control.isCode]

theorem Move.exists_root (hm : Move m H s H' s') (hs : s.Numbered) (hq : q ≠ s.nextPid)
    (hy : s'.process? q = some y) : ∃ G, Move m Past.start s G s' ∧ (G q).root = q ∧
      (H q).Between (G q) (H' q) := by
  obtain ⟨G, hG, hbetween⟩ := hm.restart
  obtain hnew | ⟨x, hx, -⟩ := hm.exists_before hy
  · exact absurd hnew hq
  · exact ⟨G, hG, ((Run.start.move hG).native.2 q (hs q x hx)).1, hbetween q hq⟩

theorem Move.fits_of_isCode (hm : Move m H s H' s') (hs : s.Numbered) (hq : q ≠ s.nextPid)
    (hy : s'.process? q = some y) (hc : y.control.isCode = true) : ∃ G x,
      Move m Past.start s G s' ∧ s.process? q = some x ∧ x.control.isCode = true ∧
      (H' q).code = (H q).code ++ (G q).code ∧ Fits s s' x (layout (G q).code) y := by
  obtain ⟨G, hG, hroot, hbetween⟩ := hm.exists_root hs hq hy
  have hrun := Run.start.move hG
  obtain ⟨x, hx, hcx⟩ := hrun.isCode hs hy hc
  obtain ⟨x', hx', hd⟩ := hrun.descends hs hy
  obtain rfl := Option.some.inj (hx.symm.trans hx')
  exact ⟨G, x, hG, hroot ▸ hx, hcx, hbetween.1, (hd.code hc).2.1⟩

theorem Move.exec_of_image (hm : Move m H s H' s') (hs : s.Numbered) (hx : s.process? q = some x)
    (hc : x.control.isCode = true) (hy : s'.process? q = some y)
    (hi : y.control.isImage = true) : ∃ path argv k, x.next? m = some ⟨.exec path argv, k⟩ ∧
      y.descriptors = x.descriptors.filter fun d => !d.closeOnExec := by
  have hq : q ≠ s.nextPid := Nat.ne_of_lt (hs q x hx)
  obtain ⟨G, hG, hroot, -⟩ := hm.exists_root hs hq hy
  obtain ⟨prog, hprog⟩ := Control.isCode_iff.1 hc
  have himage : (G q).image ≠ none :=
    ((Run.start.move hG).executes hs hy (hroot.symm ▸ hx) hprog).image hi
  have hrecord : ∀ {pid : Pid} {p : Process ι ρ} {e : Event}, s.process? pid = some p →
      (Function.update Past.start pid ((Past.start pid).record p e) q).image = none := by
    intro pid p e hp
    rw [Function.update_apply]
    split
    · subst q
      obtain rfl := Option.some.inj (hx.symm.trans hp)
      rw [Past.record, if_pos hc]
      rfl
    · rfl
  cases hG with
  | answered hp => exact absurd (hrecord hp) himage
  | refused hp => exact absurd (hrecord hp) himage
  | forked hp =>
    rw [Function.update_of_ne hq] at himage
    exact absurd (hrecord hp) himage
  | @became pid p path name argv argv' k hp hn hf =>
    rw [Function.update_apply] at himage
    split at himage
    · subst q
      obtain rfl := Option.some.inj (hx.symm.trans hp)
      rw [System.process?_setProcess, if_pos rfl] at hy
      obtain rfl := Option.some.inj hy
      exact ⟨path, argv, k, hn, rfl⟩
    · exact absurd rfl himage
  | exited | broken | signaled | outside => exact absurd rfl himage

theorem Fits.filter_eq_none {p₀ : Process ι ρ} {es : List Event} {fd : Fd}
    (hf : Fits s₀ s p₀ (layout es) x) (hclosed : ¬p₀.IsOpen fd)
    (hslot : ∀ slot, layout es fd = some slot → slot.duplicated = false) :
    (x.descriptors.get? fd).filter (fun d => !d.closeOnExec) = none := by
  have hfd := hf fd
  match hL : layout es fd, hfd with
  | none, hfd =>
    rw [hfd]
    rfl
  | some ⟨.inherited g, b⟩, hfd =>
    obtain rfl : b = false := hslot _ hL
    obtain rfl := Layout.inPlace_layout es fd g hL
    rw [hfd, not_not.1 hclosed]
    rfl
  | some ⟨.opened path mode, b⟩, ⟨n, i, position, _, hd, _⟩ =>
    obtain rfl : b = false := hslot _ hL
    rw [hd]
    rfl
  | some ⟨.piped, b⟩, ⟨n, _, hd⟩ =>
    obtain rfl : b = false := hslot _ hL
    rw [hd]
    rfl

theorem System.launched_notMem_notes {pid pid' : Pid} {p : Process ι ρ} {e : Event}
    {o : Option Nat} : .launched pid' o ∉ s.notes pid p e := by
  intro h
  obtain ⟨c, r⟩ := e
  cases c with
  | openFile path mode =>
    cases mode with
    | create mode => obtain e | fd := r <;> simp [notes] at h
    | _ => cases h
  | write fd d =>
    obtain e | count := r
    · cases h
    · cases ho : s.openFile? p fd <;> simp [notes, ho] at h
  | _ => cases h

theorem Deed.launched (hd : Deed m H s ns H' s') (hq : q ≠ s.nextPid)
    (hc : ∀ x, s.process? q = some x → x.control.isImage = false) (h : (H q).image = none)
    (hi : (H' q).image ≠ none) : ∃ o, .launched q o ∈ ns := by
  have hrecord : ∀ {pid : Pid} {p : Process ι ρ} {e : Event}
      {c : (c : Syscall) × (c.Reply → Control ι ρ)}, s.process? pid = some p →
      p.next? m = some c → (Function.update H pid ((H pid).record p e) q).image = none := by
    intro pid p e c hp hn
    rw [Function.update_apply]
    split
    · subst q
      obtain ⟨again, k, hcode, -⟩ | ⟨j, -, hj, -⟩ := Process.next?_eq_some hn
      · rw [Past.record, hcode]
        exact h
      · have := hc p hp
        rw [hj] at this
        cases this
    · exact h
  cases hd with
  | answered hp hn => exact absurd (hrecord hp hn) hi
  | other hm hf ho =>
    cases hm with
    | answered hp hn => exact absurd (hrecord hp hn) hi
    | refused hp hn => exact absurd (hrecord hp hn) hi
    | forked hp hn =>
      rw [Function.update_of_ne hq] at hi
      exact absurd (hrecord hp hn) hi
    | @became pid p path name argv argv' k hp hn hf =>
      rw [Function.update_apply] at hi
      split at hi
      · subst q
        obtain ⟨again, k, hcode, -⟩ | ⟨j, -, hj, -⟩ := Process.next?_eq_some hn
        · let y : Process ι ρ := { p with
            control := .image (m.load name argv')
            descriptors := p.descriptors.filter fun d => !d.closeOnExec }
          have hy : (s.setProcess pid y).process? pid = some y := by
            rw [System.process?_setProcess, if_pos rfl]
          exact ⟨_, System.mem_launches.2 ⟨pid, p, y, hp, by rw [hcode]; rfl, hy, rfl, rfl⟩⟩
        · have := hc p hp
          rw [hj] at this
          cases this
      · exact absurd h hi
    | exited | broken | signaled | outside => exact absurd h hi

theorem Chronicle.image_of_launched (h : Chronicle m s₀ ns H s) (hs : s₀.Numbered) {o : Option Nat}
    (hm : .launched q o ∈ ns) : q < s.nextPid ∧ (H q).image ≠ none := by
  induction h with
  | start => cases hm
  | @deed ns ns' H H' s s' h hd ih =>
    obtain hm | hm := List.mem_append.1 hm
    · obtain ⟨hlt, hi⟩ := ih hm
      obtain ⟨G, -, hbetween⟩ := hd.move.restart
      exact ⟨Nat.lt_of_lt_of_le hlt hd.move.nextPid_le,
        fun hnone => hi ((hbetween q (Nat.ne_of_lt hlt)).2 hnone)⟩
    · cases hd with
      | answered => exact absurd hm System.launched_notMem_notes
      | other hmove =>
        obtain ⟨pid, p, p', hp, hc, hp', hi, heq⟩ := System.mem_launches.1 hm
        cases heq
        have hlt : q < s.nextPid := h.run.numbered hs q p hp
        obtain ⟨p₀, h₀, hc₀⟩ := h.run.isCode hs hp hc
        obtain ⟨prog, hprog⟩ := Control.isCode_iff.1 hc₀
        have hroot := (hmove.code_cases (Nat.ne_of_lt hlt)).1
        refine ⟨Nat.lt_of_lt_of_le hlt hmove.nextPid_le, ?_⟩
        exact ((h.run.move hmove).executes hs hp' (hroot.symm ▸ h₀) hprog).image hi

/-- Whether what is open for output according to a layout is open file `n`, and nothing else is. -/
structure Process.Outputs (p : Process ι ρ) (L : Layout) (n : Nat) : Prop where
  refers : ∀ fd x, L fd = some x → x.isOutput = true →
    p.descriptors.get? fd = some ⟨n, !x.duplicated⟩
  only : ∀ fd d, p.descriptors.get? fd = some d → d.openFile = n →
    ∃ x, L fd = some x ∧ x.isOutput = true

theorem System.Covers.not_hasOpen (h : s.Covers x.descriptors) : ¬x.HasOpen s.openFiles.above := by
  rintro ⟨fd, d, hd, hdn⟩
  obtain ⟨g, hg⟩ := h fd d hd
  rw [hdn, Table.get?_eq_none_of_above_le (Nat.le_refl _)] at hg
  cases hg

theorem Fits.outputs {L : Layout} {path : Bytes} {mode : RedirectMode} {fd : Fd} {g : OpenFile}
    (hf : Fits s s' x (layout [⟨.openFile path (.create mode), .ok fd⟩]) y)
    (hcovers : s.Covers x.descriptors) (ho : s'.openFiles = s.openFiles.set s.openFiles.above g)
    (hL : ∀ fd slot, L fd = some slot → slot.isOutput = false) :
    y.Outputs (L.after [⟨.openFile path (.create mode), .ok fd⟩]) s.openFiles.above := by
  have hfits : ∀ k, Describes s s' x
      (Function.update Layout.initial fd (some ⟨.opened path (.create mode), false⟩) k)
      (y.descriptors.get? k) := hf
  have hafter : L.after [⟨.openFile path (.create mode), .ok fd⟩] =
      Function.update L fd (some ⟨.opened path (.create mode), false⟩) := rfl
  rw [hafter]
  refine ⟨fun k slot hslot hout => ?_, fun k d hd hdn => ?_⟩
  · rw [Function.update_apply] at hslot
    split at hslot
    · cases hslot
      subst k
      have hnew := hfits fd
      rw [Function.update_self] at hnew
      obtain ⟨n, j, position, habove, hd, hget⟩ := hnew
      rw [ho, Table.get?_set] at hget
      split at hget
      · rw [hd, ‹n = _›]
      · exact absurd (Table.lt_above_of_get?_eq_some hget) (Nat.not_lt_of_le habove)
    · rw [hL k slot hslot] at hout
      cases hout
  · by_cases hk : k = fd
    · subst k
      exact ⟨_, Function.update_self _ _ _, rfl⟩
    · have hold := hfits k
      rw [Function.update_of_ne hk, hd] at hold
      obtain ⟨d₀, h₀, rfl⟩ := Option.map_eq_some_iff.1 hold.symm
      exact absurd ⟨k, d₀, h₀, hdn⟩ hcovers.not_hasOpen

theorem Process.Outputs.fits {L : Layout} {es : List Event} (h : x.Outputs L n)
    (hf : Fits s s' x (layout es) y) (hn : n < s.openFiles.above)
    (hes : ∀ path mode fd, (⟨.openFile path (.create mode), .ok fd⟩ : Event) ∉ es) :
    y.Outputs (L.after es) n where
  refers fd slot hL hout := by
    rw [Layout.after_eq_resolve] at hL
    obtain ⟨⟨origin, d⟩, hd, hresolve⟩ := Option.bind_eq_some_iff.1 hL
    have hfd := hf fd
    rw [hd] at hfd
    cases origin with
    | inherited g =>
      obtain ⟨z, hg, rfl⟩ := Option.map_eq_some_iff.1 hresolve
      have hz : z.isOutput = true := by
        cases d <;> exact hout
      have hget := h.refers g z hg hz
      simp only [Describes, hget, Option.map_some] at hfd
      rw [hfd]
      cases d <;> rfl
    | opened path mode =>
      cases hresolve
      cases mode with
      | create mode =>
        obtain ⟨k, hk⟩ := Layout.opened_of_layout hd
        exact absurd hk (hes _ _ _)
      | read | write => cases hout
    | piped =>
      cases hresolve
      cases hout
  only fd d hd hdn := by
    rw [Layout.after_eq_resolve]
    have hfd := hf fd
    rw [hd] at hfd
    cases hL : layout es fd with
    | none => rw [hL] at hfd; cases hfd
    | some slot =>
      rw [hL] at hfd
      obtain ⟨g | ⟨path, mode⟩ | _, b⟩ := slot
      · obtain ⟨d₀, h₀, rfl⟩ := Option.map_eq_some_iff.1 hfd.symm
        obtain ⟨z, hz, hout⟩ := h.only g d₀ h₀ hdn
        refine ⟨if b then z.duplicate else z, ?_, by cases b <;> exact hout⟩
        simp [Layout.resolve, hz]
      · obtain ⟨k, i, position, habove, heq, -⟩ := hfd
        cases heq
        obtain rfl : k = n := hdn
        exact absurd hn (Nat.not_lt_of_le habove)
      · obtain ⟨k, habove, heq⟩ := hfd
        cases heq
        obtain rfl : k = n := hdn
        exact absurd hn (Nat.not_lt_of_le habove)

end PipeShell
