import PipeShell.Proofs.Kernel.Run
import PipeShell.Proofs.Program.Layout

/-! What a process has from the process of the first state that it comes from. Its descriptors are
those that its past tells of: while it runs code exactly those, and later no others. Main
statements: so it is in every run, and likewise for the working directory, the effect of a broken
pipe and the code (`Run.descends`, `Run.executes`), and a process knows the children that it forks
(`Run.parents`). -/
namespace PipeShell

variable {ι ρ : Type}

/-- What a layout says about a descriptor of a process that comes from `p₀`. -/
def Describes (s₀ s : System ι ρ) (p₀ : Process ι ρ) (x : Option Slot) (d : Option Descriptor) :
    Prop :=
  match x with
  | none => d = none
  | some ⟨.inherited g, duplicated⟩ => d = (p₀.descriptors.get? g).map fun d =>
      { d with closeOnExec := !duplicated && d.closeOnExec }
  | some ⟨.opened _ mode, duplicated⟩ => ∃ n i position, s₀.openFiles.above ≤ n ∧
      d = some ⟨n, !duplicated⟩ ∧ s.openFiles.get? n = some { mode.openFile i with position }
  | some ⟨.piped, duplicated⟩ => ∃ n, s₀.openFiles.above ≤ n ∧ d = some ⟨n, !duplicated⟩

def Fits (s₀ s : System ι ρ) (p₀ : Process ι ρ) (L : Layout) (p : Process ι ρ) : Prop :=
  ∀ fd, Describes s₀ s p₀ (L fd) (p.descriptors.get? fd)

/-- Whether a descriptor refers to something new, or to what its slot says that it does. -/
def Traces (s₀ : System ι ρ) (p₀ : Process ι ρ) (x : Option Slot) (d : Descriptor) : Prop :=
  s₀.openFiles.above ≤ d.openFile ∨ ∃ g b d₀, x = some ⟨.inherited g, b⟩ ∧
    p₀.descriptors.get? g = some d₀ ∧ d.openFile = d₀.openFile

def Within (s₀ : System ι ρ) (p₀ : Process ι ρ) (L : Layout) (p : Process ι ρ) : Prop :=
  ∀ fd d, p.descriptors.get? fd = some d → Traces s₀ p₀ (L fd) d

def Process.IsOpen (p : Process ι ρ) (fd : Fd) : Prop := p.descriptors.get? fd ≠ none

variable {s₀ s s' : System ι ρ} {p₀ p p' : Process ι ρ} {L : Layout} {e : Event} {fd : Fd}
  {x : Option Slot} {d : Descriptor}

theorem fits_initial : Fits s₀ s p₀ Layout.initial p₀ := by
  intro fd
  simp [Layout.initial, Describes]

theorem within_initial : Within s₀ p₀ Layout.initial p₀ := by
  intro fd d hd
  exact .inr ⟨fd, false, d, rfl, hd, rfl⟩

theorem describes_duplicate (h : Describes s₀ s p₀ x (some d)) :
    Describes s₀ s p₀ (x.map Slot.duplicate) (some { d with closeOnExec := false }) := by
  obtain _ | ⟨g | ⟨path, mode⟩ | _, b⟩ := x
  · cases h
  · obtain ⟨d₀, h₀, rfl⟩ := Option.map_eq_some_iff.1 h.symm
    simp [Describes, Slot.duplicate, h₀]
  · obtain ⟨n, i, position, hn, hd, hf⟩ := h
    obtain rfl := Option.some.inj hd
    exact ⟨n, i, position, hn, rfl, hf⟩
  · obtain ⟨n, hn, hd⟩ := h
    obtain rfl := Option.some.inj hd
    exact ⟨n, hn, rfl⟩

theorem Describes.grown {d : Option Descriptor} (h : Describes s₀ s p₀ x d)
    (hg : System.Grown s s') : Describes s₀ s' p₀ x d := by
  obtain _ | ⟨g | ⟨path, mode⟩ | _, b⟩ := x
  · exact h
  · exact h
  · obtain ⟨n, i, position, hn, hd, hf⟩ := h
    obtain ⟨position', hf'⟩ := hg.kept n _ hf
    exact ⟨n, i, position', hn, hd, hf'⟩
  · exact h

theorem Fits.update {ds : Table Descriptor} (h : ∀ fd, Describes s₀ s p₀ (L fd) (ds.get? fd))
    (hx : Describes s₀ s p₀ x (some d)) (k fd : Fd) :
    Describes s₀ s p₀ (Function.update L k x fd) ((ds.set k d).get? fd) := by
  rw [Function.update_apply, Table.get?_set]
  split
  · exact hx
  · exact h fd

theorem Fits.effect (h : Fits s₀ s' p₀ L p) (hs : System.Grown s₀ s)
    (he : System.Effect s s' p e p') : Fits s₀ s' p₀ (L.read e) p' := by
  cases he with
  | neutral hn => rw [Layout.read_of_isNeutral hn]; exact h
  | defaultBrokenPipe | chdir => exact h
  | @pipe r w i j q f g hr hw hne hi hj =>
    have hpiped : ∀ n, s.openFiles.above ≤ n →
        Describes s₀ s' p₀ (some ⟨.piped, false⟩) (some ⟨n, true⟩) :=
      fun n hn => ⟨n, Nat.le_trans hs.openFiles hn, rfl⟩
    exact Fits.update (Fits.update h (hpiped i hi) r) (hpiped j hj) w
  | @dup2 a b d ha =>
    intro fd
    have hx := h a
    rw [ha] at hx
    by_cases hab : a = b
    · simpa [Layout.read, hab] using h fd
    · simpa [Layout.read, hab] using Fits.update h (describes_duplicate hx) b fd
  | @close k r ds hds =>
    intro fd
    rw [hds]
    show Describes s₀ s' p₀ (Function.update L k none fd) _
    rw [Function.update_apply]
    split
    · rfl
    · exact h fd
  | @openFile path mode k n i hfd hn hf =>
    have hx : Describes s₀ s' p₀ (some ⟨.opened path mode, false⟩) (some ⟨n, true⟩) :=
      ⟨n, i, (mode.openFile i).position, Nat.le_trans hs.openFiles hn, rfl, hf⟩
    exact Fits.update h hx k

theorem Fits.free (h : Fits s₀ s p₀ L p) (hfd : p.descriptors.get? fd = none) :
    L.Free p₀.IsOpen fd := by
  intro x hx
  have hd := h fd
  rw [hx, hfd] at hd
  obtain ⟨g | ⟨path, mode⟩ | _, b⟩ := x
  · refine ⟨g, rfl, fun hg => hg ?_⟩
    exact Option.map_eq_none_iff.1 (Eq.symm hd)
  · obtain ⟨n, i, position, -, hd, -⟩ := hd
    cases hd
  · obtain ⟨n, -, hd⟩ := hd
    cases hd

theorem Fits.freshEvent (h : Fits s₀ s' p₀ L p) (he : System.Effect s s' p e p') :
    L.FreshEvent p₀.IsOpen e := by
  cases he with
  | pipe hr hw hne => exact ⟨h.free hr, h.free hw, hne⟩
  | openFile hfd => exact h.free hfd
  | defaultBrokenPipe | chdir | dup2 | close => trivial
  | neutral hn =>
    obtain ⟨c, r⟩ := e
    cases c with
    | pipe | openFile => cases r <;> trivial
    | _ => trivial

theorem Within.update {ds : Table Descriptor}
    (h : ∀ fd d, ds.get? fd = some d → Traces s₀ p₀ (L fd) d) (hx : Traces s₀ p₀ x d) (k : Fd) :
    ∀ fd d', (ds.set k d).get? fd = some d' → Traces s₀ p₀ (Function.update L k x fd) d' := by
  intro fd d' hd
  rw [Table.get?_set] at hd
  rw [Function.update_apply]
  split at hd
  · rename_i hk
    obtain rfl := Option.some.inj hd
    rwa [if_pos hk]
  · rename_i hk
    rw [if_neg hk]
    exact h fd d' hd

theorem Traces.duplicate (h : Traces s₀ p₀ x d) :
    Traces s₀ p₀ (x.map Slot.duplicate) { d with closeOnExec := false } := by
  obtain hn | ⟨g, b, d₀, rfl, h₀, hd⟩ := h
  · exact .inl hn
  · exact .inr ⟨g, true, d₀, rfl, h₀, hd⟩

theorem Within.effect (h : Within s₀ p₀ L p) (hs : System.Grown s₀ s)
    (he : System.Effect s s' p e p') : Within s₀ p₀ (L.read e) p' := by
  have hnew : ∀ {n b x}, s.openFiles.above ≤ n → Traces s₀ p₀ x ⟨n, b⟩ :=
    fun hn => .inl (Nat.le_trans hs.openFiles hn)
  cases he with
  | neutral hn => rw [Layout.read_of_isNeutral hn]; exact h
  | defaultBrokenPipe | chdir => exact h
  | @pipe r w i j q f g hr hw hne hi hj => exact Within.update (Within.update h (hnew hi) r) (hnew hj) w
  | @dup2 a b d ha =>
    intro fd
    by_cases hab : a = b
    · simpa [Layout.read, hab] using h fd
    · simpa [Layout.read, hab] using Within.update h (h a d ha).duplicate b fd
  | @close k r ds hds =>
    intro fd d hd
    rw [hds] at hd
    split at hd
    · cases hd
    · rename_i hk
      show Traces s₀ p₀ (Function.update L k none fd) d
      rw [Function.update_of_ne hk]
      exact h fd d hd
  | @openFile path mode k n i hfd hn => exact Within.update h (hnew hn) k

theorem Within.mono (h : Within s₀ p₀ L p)
    (hd : ∀ fd d, p'.descriptors.get? fd = some d → p.descriptors.get? fd = some d) :
    Within s₀ p₀ L p' := fun fd d hp => h fd d (hd fd d hp)

/-- What a process with the past `h` has from the process `p₀` that it comes from. -/
structure Descends (s₀ s : System ι ρ) (pid : Pid) (h : Past) (p₀ p : Process ι ρ) : Prop where
  /-- a child is another process -/
  own : Own h.events → pid = h.root
  within : Within s₀ p₀ (layout h.events) p
  code : p.control.isCode = true → h.image = none ∧ Fits s₀ s p₀ (layout h.code) p ∧
    Layout.initial.Fresh p₀.IsOpen h.code
  directory : p.directory = p₀.directory ∨
    ∃ path, (⟨.chdir path, .ok ()⟩ : Event) ∈ h.events
  brokenPipe : (⟨.defaultBrokenPipe, ()⟩ : Event) ∈ h.events → p.ignoresBrokenPipe = false
  ended : ∀ t, p.control = .ended t → p₀.control = .ended t ∨ p.descriptors = Table.empty

theorem Past.events_record {h : Past} (hi : p.control.isCode = true → h.image = none) (e : Event) :
    (h.record p e).events = h.events ++ [e] := by
  unfold Past.record Past.events
  split
  · rename_i hc
    simp [hi hc]
  · simp

theorem isCode_of_next? {m : Machine ι} {c : Syscall} {k : c.Reply → Control ι ρ}
    (hn : p.next? m = some ⟨c, k⟩) (r : c.Reply) :
    (k r).isCode = p.control.isCode ∧ ∀ t, k r ≠ .ended t := by
  obtain ⟨again, k', hc, rfl⟩ | ⟨i, j, hc, rfl⟩ := Process.next?_eq_some hn
  · rw [hc]
    dsimp only
    constructor <;> split <;> simp [Control.isCode]
  · rw [hc]
    exact ⟨rfl, nofun⟩

namespace Descends

variable {pid : Pid} {h : Past} {m : Machine ι}

theorem start (s₀ : System ι ρ) (pid : Pid) (p : Process ι ρ) :
    Descends s₀ s₀ pid (Past.start pid) p p where
  own _ := rfl
  within := within_initial
  code _ := ⟨rfl, fits_initial, trivial⟩
  directory := .inl rfl
  brokenPipe hm := by cases hm
  ended t ht := .inl ht

theorem grown (hd : Descends s₀ s pid h p₀ p) (hg : System.Grown s s') :
    Descends s₀ s' pid h p₀ p where
  own := hd.own
  within := hd.within
  code hc := by
    obtain ⟨hi, hf, hfresh⟩ := hd.code hc
    exact ⟨hi, fun fd => (hf fd).grown hg, hfresh⟩
  directory := hd.directory
  brokenPipe := hd.brokenPipe
  ended := hd.ended

theorem event (hd : Descends s₀ s' pid h p₀ p) (hs : System.Grown s₀ s) {c : Syscall}
    {k : c.Reply → Control ι ρ} {r : c.Reply} (hn : p.next? m = some ⟨c, k⟩)
    (he : System.Effect s s' p ⟨c, r⟩ p') {q : Pid}
    (hq : Own (h.events ++ [⟨c, r⟩]) → q = h.root) :
    Descends s₀ s' q (h.record p ⟨c, r⟩) p₀ { p' with control := k r } := by
  have hevents := Past.events_record (fun hc => (hd.code hc).1) (⟨c, r⟩ : Event)
  obtain ⟨hcode, hended⟩ := isCode_of_next? hn r
  have hlayout : ∀ es, layout (es ++ [⟨c, r⟩]) = (layout es).read ⟨c, r⟩ := by simp [layout]
  refine ⟨?_, ?_, ?_, ?_, ?_, fun t ht => absurd ht (hended t)⟩
  · rw [hevents]
    intro ho
    rw [hq ho, Past.root_record]
  · rw [hevents, hlayout]
    have hw : Within s₀ p₀ _ p' := hd.within.effect hs he
    exact hw
  · intro hc
    have hp : p.control.isCode = true := hcode ▸ hc
    obtain ⟨hi, hf, hfresh⟩ := hd.code hp
    rw [Past.record, if_pos hp, hlayout]
    have hf' : Fits s₀ s' p₀ _ p' := hf.effect hs he
    exact ⟨hi, hf', Layout.fresh_concat.2 ⟨hfresh, hf.freshEvent he⟩⟩
  · rw [hevents]
    obtain hp | ⟨path, hc⟩ := he.directory_eq_or
    · obtain h₀ | ⟨path, hm⟩ := hd.directory
      · exact .inl (hp.trans h₀)
      · exact .inr ⟨path, List.mem_append_left _ hm⟩
    · exact .inr ⟨path, List.mem_append_right _ (List.mem_singleton.2 hc.symm)⟩
  · rw [hevents]
    intro hm
    refine he.ignoresBrokenPipe_eq_false ?_
    obtain hm | hm := List.mem_append.1 hm
    · exact .inl (hd.brokenPipe hm)
    · exact .inr (List.mem_singleton.1 hm).symm

end Descends

theorem preserved_descends (m : Machine ι) (s₀ : System ι ρ) : Preserved m s₀
    fun s pid h p => ∃ p₀, s₀.process? h.root = some p₀ ∧ Descends s₀ s pid h p₀ p where
  start hp := ⟨_, hp, .start s₀ _ _⟩
  grown hg := by
    rintro ⟨p₀, hp, h⟩
    exact ⟨p₀, hp, h.grown hg⟩
  event hg h hn he := by
    obtain ⟨p₀, hp, h⟩ := h
    refine ⟨p₀, ?_, h.event hg hn he fun ho => h.own (own_append.1 ho).1⟩
    rwa [Past.root_record]
  birth hg h hn := by
    rename_i s pid past p k new
    obtain ⟨p₀, hp, h⟩ := h
    -- the child is the parent with another parent, to which the event happens
    have h' : Descends s₀ s pid past p₀ { p with parent := pid } :=
      ⟨h.own, h.within, h.code, h.directory, h.brokenPipe, h.ended⟩
    have hbirth : ¬Own (past.events ++ [⟨.fork, .ok .child⟩]) := by simp [Event.isBirth]
    refine ⟨p₀, by rwa [Past.root_record], ?_⟩
    exact h'.event hg hn (.neutral rfl none) fun ho => absurd ho hbirth
  become h hn := by
    obtain ⟨p₀, hp, h⟩ := h
    refine ⟨p₀, hp, h.own, h.within.mono fun fd d hd => ?_, nofun, h.directory, h.brokenPipe, nofun⟩
    obtain ⟨hd, -⟩ := Option.filter_eq_some_iff.1 ((Table.get?_filter _ _ _).symm.trans hd)
    exact hd
  exited h hn := by
    obtain ⟨p₀, hp, h⟩ := h
    exact ⟨p₀, hp, h.own, fun fd d hd => (nomatch hd), nofun, h.directory, h.brokenPipe,
      fun _ _ => .inr rfl⟩
  signaled h := by
    obtain ⟨p₀, hp, h⟩ := h
    exact ⟨p₀, hp, h.own, fun fd d hd => (nomatch hd), nofun, h.directory, h.brokenPipe,
      fun _ _ => .inr rfl⟩
  stopped h := by
    obtain ⟨p₀, hp, h⟩ := h
    exact ⟨p₀, hp, h.own, h.within, h.code, h.directory, h.brokenPipe, h.ended⟩

theorem Run.descends {m : Machine ι} {H : Pid → Past} {pid : Pid} (h : Run m s₀ H s)
    (hs : s₀.Numbered) (hp : s.process? pid = some p) :
    ∃ p₀, s₀.process? (H pid).root = some p₀ ∧ Descends s₀ s pid (H pid) p₀ p :=
  h.invariant hs (preserved_descends m s₀) pid p hp

/-- What the past of a process tells of its code, if the process that it comes from runs `prog`. -/
structure Executes (prog : Program ρ) (h : Past) (p : Process ι ρ) : Prop where
  reaches : ∃ q, prog.Reaches h.code q
  code : ∀ q, p.control = .code q → prog.Reaches h.code q ∧ h.image = none
  image : p.control.isImage = true → h.image ≠ none
  became : h.image ≠ none → ∃ path argv again k,
    prog.Reaches h.code (.call (.exec path argv) again k)
  exited : ∀ n, p.control = .ended (.exited n) → h.image = none →
    ∃ code, prog.Exits h.code code ∧ n = ExitCode.status code

namespace Executes

variable {m : Machine ι} {prog : Program ρ} {h : Past}

theorem start (pid : Pid) (hp : p.control = .code prog) : Executes prog (Past.start pid) p where
  reaches := ⟨prog, .refl prog⟩
  code q hq := by
    rw [hp] at hq
    cases hq
    exact ⟨.refl prog, rfl⟩
  image hi := by rw [hp] at hi; cases hi
  became hi := absurd rfl hi
  exited n hn := by rw [hp] at hn; cases hn

theorem event (hx : Executes prog h p) {c : Syscall} {k : c.Reply → Control ι ρ} {r : c.Reply}
    (hn : p.next? m = some ⟨c, k⟩) (hp' : p'.control = k r) :
    Executes prog (h.record p ⟨c, r⟩) p' := by
  obtain ⟨again, k', hc, rfl⟩ | ⟨i, j, hc, rfl⟩ := Process.next?_eq_some hn
  · -- code: the reply leads on to what is left of it
    obtain ⟨hr, hi⟩ := hx.code _ hc
    have hstep : ∃ q, p'.control = .code q ∧ prog.Reaches (h.code ++ [⟨c, r⟩]) q := by
      dsimp only at hp'
      split at hp'
      · rename_i ha
        exact ⟨_, hp'.trans hc, hr.trans (.again ha (.refl _))⟩
      · rename_i ha
        exact ⟨_, hp', hr.trans (.next (by simpa using ha) (.refl _))⟩
    obtain ⟨q, hq, hr'⟩ := hstep
    rw [Past.record, hc]
    refine ⟨⟨q, hr'⟩, fun q' hq' => ?_, fun hi => ?_, fun hi' => absurd hi hi', fun n hn => ?_⟩
    · rw [hq] at hq'
      cases hq'
      exact ⟨hr', hi⟩
    · rw [hq] at hi; cases hi
    · rw [hq] at hn; cases hn
  · rw [Past.record, hc]
    refine ⟨hx.reaches, fun q' hq' => ?_, fun _ => nofun,
      fun _ => hx.became (hx.image (by rw [hc]; rfl)), fun n hn => ?_⟩
    · rw [hp'] at hq'; cases hq'
    · rw [hp'] at hn; cases hn

end Executes

theorem preserved_executes (m : Machine ι) (s₀ : System ι ρ) : Preserved m s₀
    fun _ _ h p => ∀ p₀ prog, s₀.process? h.root = some p₀ → p₀.control = .code prog →
      Executes prog h p where
  start {pid p} hp p₀ prog h₀ hc := by
    obtain rfl : p = p₀ := Option.some.inj (hp.symm.trans h₀)
    exact .start pid hc
  grown _ h := h
  event _ h hn he p₀ prog h₀ hc := by
    rw [Past.root_record] at h₀
    exact (h p₀ prog h₀ hc).event hn rfl
  birth _ h hn p₀ prog h₀ hc := by
    rw [Past.root_record] at h₀
    exact (h p₀ prog h₀ hc).event hn rfl
  become h hn p₀ prog h₀ hc := by
    have hx := h p₀ prog h₀ hc
    refine ⟨hx.reaches, nofun, fun _ => nofun, fun _ => ?_, nofun⟩
    obtain ⟨again, k', hcode, -⟩ | ⟨i, j, himage, -⟩ := Process.next?_eq_some hn
    · exact ⟨_, _, again, k', (hx.code _ hcode).1⟩
    · exact hx.became (hx.image (by rw [himage]; rfl))
  exited {s pid past p code k} h hn p₀ prog h₀ hc := by
    have hx := h p₀ prog h₀ hc
    refine ⟨hx.reaches, nofun, nofun, hx.became, fun n hp hi => ?_⟩
    cases hp
    obtain ⟨again, k', hcode, -⟩ | ⟨i, j, himage, -⟩ := Process.next?_eq_some hn
    · exact ⟨code, ⟨again, k', (hx.code _ hcode).1⟩, rfl⟩
    · exact absurd hi (hx.image (by rw [himage]; rfl))
  signaled h p₀ prog h₀ hc := by
    have hx := h p₀ prog h₀ hc
    exact ⟨hx.reaches, nofun, nofun, hx.became, nofun⟩
  stopped h p₀ prog h₀ hc := by
    have hx := h p₀ prog h₀ hc
    exact ⟨hx.reaches, hx.code, hx.image, hx.became, hx.exited⟩

theorem Run.executes {m : Machine ι} {H : Pid → Past} {pid : Pid} {prog : Program ρ}
    (h : Run m s₀ H s) (hs : s₀.Numbered) (hp : s.process? pid = some p)
    (h₀ : s₀.process? (H pid).root = some p₀) (hc : p₀.control = .code prog) :
    Executes prog (H pid) p :=
  h.invariant hs (preserved_executes m s₀) pid p hp p₀ prog h₀ hc

section Children

variable {m : Machine ι} {t : System ι ρ} {H : Pid → Past} {sh : Pid}

/-- Whether a process with the past `h` was forked by code after the events `es`, and not by a
program or by another child. -/
def Past.Child (es : List Event) (h : Past) : Prop :=
  Own es ∧ ∃ gs, h.code = es ++ birth :: gs ∧ Own gs ∧ Own (h.image.getD [])

/-- What comes last in the code of a child has come since its birth, unless it is its birth. -/
theorem eq_or_of_concat_eq {cs es gs : List Event} {e : Event} (h : cs ++ [e] = es ++ birth :: gs) :
    e = birth ∧ cs = es ∨ ∃ gs', gs = gs' ++ [e] ∧ cs = es ++ birth :: gs' := by
  obtain rfl | ⟨gs', x, rfl⟩ := gs.eq_nil_or_concat
  · obtain ⟨rfl, he⟩ := List.append_inj' h rfl
    exact .inl ⟨(List.cons.inj he).1, rfl⟩
  · rw [List.concat_eq_append, ← List.cons_append, ← List.append_assoc] at h
    obtain ⟨rfl, he⟩ := List.append_inj' h rfl
    obtain rfl := (List.cons.inj he).1
    exact .inr ⟨gs', List.concat_eq_append, rfl⟩

theorem Past.Child.of_record {past : Past} {e : Event} {es : List Event}
    (h : (past.record p e).Child es) (he : e.isBirth = false) : past.Child es := by
  obtain ⟨ho, gs, hcode, hgs, himage⟩ := h
  unfold Past.record at hcode himage
  split at hcode
  · rw [if_pos ‹_›] at himage
    obtain ⟨rfl, -⟩ | ⟨gs', rfl, hcs⟩ := eq_or_of_concat_eq hcode
    · cases he
    · exact ⟨ho, gs', hcs, (own_append.1 hgs).1, himage⟩
  · rw [if_neg ‹_›] at himage
    exact ⟨ho, gs, hcode, hgs, (own_append.1 himage).1⟩

theorem Past.Child.of_birth {past : Past} {es : List Event} (h : (past.record p birth).Child es)
    (hi : p.control.isCode = true → past.image = none) :
    p.control.isCode = true ∧ past.code = es ∧ Own past.events := by
  obtain ⟨ho, gs, hcode, hgs, himage⟩ := h
  unfold Past.record at hcode himage
  split at hcode
  · rename_i hc
    obtain ⟨-, rfl⟩ | ⟨gs', rfl, -⟩ := eq_or_of_concat_eq hcode
    · refine ⟨hc, rfl, ?_⟩
      rw [Past.events, hi hc]
      simpa using ho
    · cases (own_append.1 hgs).2 _ (List.mem_singleton_self _)
  · rw [if_neg ‹_›] at himage
    cases (own_append.1 himage).2 _ (List.mem_singleton_self _)

/-- Whether process `sh` has got the numbers of the children that it has forked. -/
def Parents (sh : Pid) (H : Pid → Past) : Prop :=
  ∀ pid es, (H pid).root = sh → (H pid).Child es →
    ∃ fs, (H sh).code = es ++ ⟨.fork, .ok (.parent pid)⟩ :: fs

theorem Parents.record {q : Pid} {e : Event} (h : Parents sh H) (he : e.isBirth = false)
    (p : Process ι ρ) : Parents sh (Function.update H q ((H q).record p e)) := by
  intro pid es hroot hchild
  obtain ⟨fs, hfs⟩ : ∃ fs, (H sh).code = es ++ ⟨.fork, .ok (.parent pid)⟩ :: fs := by
    rw [Function.update_apply] at hroot hchild
    split at hchild
    · subst pid
      rw [if_pos rfl, Past.root_record] at hroot
      exact h q es hroot (hchild.of_record he)
    · rw [if_neg ‹_›] at hroot
      exact h pid es hroot hchild
  rw [Function.update_apply]
  split
  · subst q
    unfold Past.record
    split
    · exact ⟨fs ++ [e], by simp [hfs]⟩
    · exact ⟨fs, hfs⟩
  · exact ⟨fs, hfs⟩

theorem Parents.become (h : Parents sh H) (q : Pid) :
    Parents sh (Function.update H q (H q).become) := by
  intro pid es hroot hchild
  obtain ⟨hr, hcode, himage⟩ := Past.update_become H q pid
  rw [Past.Child, hcode, himage] at hchild
  rw [(Past.update_become H q sh).2.1]
  exact h pid es (hr ▸ hroot) hchild

theorem Run.parents (h : Run m s₀ H t) (hs : s₀.Numbered) (hsh : sh < s₀.nextPid) :
    Parents sh H := by
  induction h with
  | start =>
    intro pid es _ hchild
    obtain ⟨-, gs, hcode, -⟩ := hchild
    cases es <;> cases hcode
  | answered h hp hn ha ih => exact ih.record (System.isBirth_of_answer ha) _
  | refused h hp hn hr ih => exact ih.record hr.isBirth _
  | @forked H s q p k h hp hn hf ih =>
    have hrec := ih.record (q := q) (e := ⟨.fork, .ok (.parent s.nextPid)⟩) rfl p
    have hne : sh ≠ s.nextPid := Nat.ne_of_lt (Nat.lt_of_lt_of_le hsh h.native.1)
    intro pid es hroot hchild
    rw [Function.update_of_ne hne]
    by_cases hpid : pid = s.nextPid
    · -- the new child
      subst hpid
      rw [Function.update_self] at hroot hchild
      obtain ⟨p₁, -, hd⟩ := h.descends hs hp
      obtain ⟨hc, hes, hown⟩ := hchild.of_birth fun hc => (hd.code hc).1
      obtain rfl : q = sh := (hd.own hown).trans ((Past.root_record _ _ _).symm.trans hroot)
      rw [Function.update_self, Past.record, if_pos hc, hes]
      exact ⟨[], rfl⟩
    · rw [Function.update_of_ne hpid] at hroot hchild
      exact hrec pid es hroot hchild
  | became _ _ _ _ ih => exact ih.become _
  | exited _ _ _ ih => exact ih
  | broken _ _ _ _ _ ih => exact ih
  | signaled _ _ _ ih => exact ih
  | outside _ _ _ _ _ ih => exact ih

end Children

end PipeShell
