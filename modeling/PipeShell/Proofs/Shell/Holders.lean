import PipeShell.Proofs.Kernel.Restart
import PipeShell.Proofs.Shell.Wiring

/-! Who holds the ends of the links of a pipeline. A process can refer to an end only because the
shell did when it began to fork stages, and its past tells where it has it from. Main statement: a
stage starts with its own two ends and no others, and once the shell has dropped the links and the
stages have been wired, each end is held by the one stage that is to have it, so that nothing keeps
its neighbour from the end of its input or from a broken pipe (`pipeline_wiring`). -/
namespace PipeShell

open Program

variable {ι ρ : Type} {m : Machine ι} {s s₀ t : System ι ρ} {H : Pid → Past} {sh pid : Pid}
  {p₀ p : Process ι ρ} {fd : Fd} {r : Resource}

namespace System

def Refers (s : System ι ρ) (p : Process ι ρ) (fd : Fd) (r : Resource) : Prop :=
  ∃ n f, s.openFile? p fd = some (n, f) ∧ f.resource = r

theorem refers_iff : s.Refers p fd r ↔ ∃ d f, p.descriptors.get? fd = some d ∧
    s.openFiles.get? d.openFile = some f ∧ f.resource = r := by
  simp only [Refers, openFile?_eq_some_iff]
  constructor
  · rintro ⟨n, f, ⟨d, hd, rfl, hf⟩, hr⟩
    exact ⟨d, f, hd, hf, hr⟩
  · rintro ⟨d, f, hd, hf, hr⟩
    exact ⟨d.openFile, f, ⟨d, hd, rfl, hf⟩, hr⟩

theorem isHeld_iff_refers : s.isHeld r ↔ ∃ pid p fd, s.process? pid = some p ∧ s.Refers p fd r := by
  simp only [isHeld_iff, holds_iff, Refers]
  constructor
  · rintro ⟨pid, p, hp, fd, h⟩
    exact ⟨pid, p, fd, hp, h⟩
  · rintro ⟨pid, p, fd, hp, h⟩
    exact ⟨pid, p, hp, fd, h⟩

theorem read_of_not_isHeld {n k count : Nat} {f : OpenFile} (ho : s.openFile? p fd = some (k, f))
    (hr : f.resource = .readEnd n) (hf : f.readable = true)
    (hn : (s.pipes.get? n).getD [] = []) (hw : s.isHeld (.writeEnd n) = false) :
    s.read p fd count = some (.ok [], s) := by
  simp [read, ho, hr, hf, hn, hw]

theorem write_of_not_isHeld {n k : Nat} {f : OpenFile} {data : Bytes}
    (ho : s.openFile? p fd = some (k, f)) (hr : f.resource = .writeEnd n) (hf : f.writable = true)
    (hd : data ≠ []) (hw : s.isHeld (.readEnd n) = false) :
    s.write p fd data = some (.error Errno.brokenPipe, s) := by
  simp [write, ho, hr, hf, hd, hw]

def IsEnd (r : Resource) (n : Nat) : Prop := r = .readEnd n ∨ r = .writeEnd n

end System

/-- An end of a pipe that there was at the start, and to which one descriptor of one process
referred then, is referred to later only by descriptors that come from that one. -/
theorem Run.inherited_of_refers (h : Run m s₀ H t) (hs : s₀.Numbered) {n : Nat}
    (hn : n < s₀.pipes.above) (hr : System.IsEnd r n) {g : Fd}
    (hone : ∀ pid p fd, s₀.process? pid = some p → s₀.Refers p fd r → pid = sh ∧ fd = g)
    (hp : t.process? pid = some p) (hf : t.Refers p fd r) :
    (H pid).root = sh ∧ ∃ b, layout (H pid).events fd = some ⟨.inherited g, b⟩ := by
  obtain ⟨p₁, h₁, hd⟩ := h.descends hs hp
  obtain ⟨d, f, hfd, hfile, rfl⟩ := System.refers_iff.1 hf
  -- an open file made since then is no end of that pipe
  have hold : s₀.openFiles.get? d.openFile ≠ none := by
    intro hnone
    have := (h.grown.added _ f hfile hnone).2 n hr
    omega
  obtain ⟨f₀, hf₀⟩ := Option.ne_none_iff_exists'.1 hold
  obtain ⟨position, hkept⟩ := h.grown.kept _ f₀ hf₀
  rw [hfile] at hkept
  obtain rfl := Option.some.inj hkept
  obtain hnew | ⟨k, b, d₀, hL, hk, he⟩ := hd.within fd d hfd
  · exact absurd (Table.get?_eq_none_of_above_le hnew) hold
  · obtain ⟨hroot, rfl⟩ := hone _ p₁ k h₁ (System.refers_iff.2 ⟨d₀, f₀, hk, he ▸ hf₀, rfl⟩)
    exact ⟨hroot, b, hL⟩

/-- Link `j` is the pipe `q j`, process `sh` has the links open beside its standard streams, and
nobody else has an end of one: that is how it is when they have just been opened
(`linked_of_openings`). -/
structure Linked (s : System ι ρ) (sh : Pid) (p : Process ι ρ) (links : List Link) (q : Nat → Nat) :
    Prop where
  process : s.process? sh = some p
  nodup : (Link.ends links).Nodup
  streams : ∀ fd ≤ Fd.stderr, p.IsOpen fd
  beside : ∀ fd ∈ Link.ends links, Fd.stderr < fd
  pipes : ∀ j < links.length, q j < s.pipes.above
  readEnd : ∀ j k, links[j]? = some k → s.Refers p k.readEnd (.readEnd (q j))
  writeEnd : ∀ j k, links[j]? = some k → s.Refers p k.writeEnd (.writeEnd (q j))
  reader : ∀ j k, links[j]? = some k → ∀ pid x fd, s.process? pid = some x →
    s.Refers x fd (.readEnd (q j)) → pid = sh ∧ fd = k.readEnd
  writer : ∀ j k, links[j]? = some k → ∀ pid x fd, s.process? pid = some x →
    s.Refers x fd (.writeEnd (q j)) → pid = sh ∧ fd = k.writeEnd

theorem ends_getElem? (links : List Link) (j : Nat) :
    (Link.ends links)[2 * j]? = links[j]?.map Link.readEnd ∧
      (Link.ends links)[2 * j + 1]? = links[j]?.map Link.writeEnd := by
  induction links generalizing j with
  | nil => simp [Link.ends]
  | cons k links ih =>
    cases j with
    | zero => exact ⟨rfl, rfl⟩
    | succ j => exact ih j

theorem ends_inj {links : List Link} (h : (Link.ends links).Nodup) {i j : Nat} {a b : Link}
    (ha : links[i]? = some a) (hb : links[j]? = some b) :
    (a.readEnd = b.readEnd → i = j) ∧ (a.writeEnd = b.writeEnd → i = j) ∧
      a.readEnd ≠ b.writeEnd := by
  have hread : ∀ {i a}, links[i]? = some a → (Link.ends links)[2 * i]? = some a.readEnd :=
    fun h => by rw [(ends_getElem? links _).1, h]; rfl
  have hwrite : ∀ {i a}, links[i]? = some a → (Link.ends links)[2 * i + 1]? = some a.writeEnd :=
    fun h => by rw [(ends_getElem? links _).2, h]; rfl
  have hinj : ∀ {x y : Nat} {fd : Fd}, (Link.ends links)[x]? = some fd →
      (Link.ends links)[y]? = some fd → x = y := by
    intro x y fd hx hy
    obtain ⟨hlt, -⟩ := List.getElem?_eq_some_iff.1 hx
    exact (List.getElem?_inj hlt h).1 (hx.trans hy.symm)
  refine ⟨fun he => ?_, fun he => ?_, fun he => ?_⟩
  · have := hinj (hread ha) (he ▸ hread hb)
    omega
  · have := hinj (hwrite ha) (he ▸ hwrite hb)
    omega
  · have := hinj (hread ha) (he ▸ hwrite hb)
    omega

section Ends

variable {links : List Link} {i j : Nat} {k : Link}

theorem before_eq_some (h : Link.before links i = some k) :
    ∃ j, i = j + 1 ∧ links[j]? = some k := by
  unfold Link.before at h
  split at h
  · cases h
  · exact ⟨i - 1, (Nat.succ_pred_eq_of_ne_zero ‹_›).symm, h⟩

theorem wires_readEnd_iff (h : (Link.ends links).Nodup) (hk : links[j]? = some k) :
    Link.Wires links i fd k.readEnd ↔ fd = Fd.stdin ∧ i = j + 1 := by
  constructor
  · rintro (⟨rfl, k', hbefore, he⟩ | ⟨rfl, k', hi, he⟩)
    · obtain ⟨j', rfl, hj'⟩ := before_eq_some hbefore
      exact ⟨rfl, congrArg (· + 1) ((ends_inj h hk hj').1 he).symm⟩
    · exact absurd he (ends_inj h hk hi).2.2
  · rintro ⟨rfl, rfl⟩
    exact .inl ⟨rfl, k, hk, rfl⟩

theorem wires_writeEnd_iff (h : (Link.ends links).Nodup) (hk : links[j]? = some k) :
    Link.Wires links i fd k.writeEnd ↔ fd = Fd.stdout ∧ i = j := by
  constructor
  · rintro (⟨rfl, k', hbefore, he⟩ | ⟨rfl, k', hi, he⟩)
    · obtain ⟨j', -, hj'⟩ := before_eq_some hbefore
      exact absurd he.symm (ends_inj h hj' hk).2.2
    · exact ⟨rfl, ((ends_inj h hk hi).2.1 he).symm⟩
  · rintro ⟨rfl, rfl⟩
    exact .inr ⟨rfl, k, hk, rfl⟩

end Ends

/-- Whether a process with the past `h` is stage `i` of a pipeline that process `sh` is running, or
comes from it. -/
def Past.OfStage (sh : Pid) (i : Nat) (h : Past) : Prop :=
  h.root = sh ∧ ∃ pids gs, pids.length = i ∧ h.code = forks pids ++ birth :: gs

theorem forks_append_birth_inj {pids pids' : List Pid} {gs gs' : List Event}
    (h : forks pids ++ birth :: gs = forks pids' ++ birth :: gs') : pids = pids' := by
  induction pids generalizing pids' with
  | nil =>
    cases pids' with
    | nil => rfl
    | cons pid pids' => cases h
  | cons pid pids ih =>
    cases pids' with
    | nil => cases h
    | cons pid' pids' =>
      obtain ⟨he, ht⟩ := List.cons.inj h
      rw [parent_inj he, ih ht]

theorem Past.OfStage.unique {i j : Nat} {h : Past} (hi : h.OfStage sh i) (hj : h.OfStage sh j) :
    i = j := by
  obtain ⟨-, pids, gs, rfl, hcode⟩ := hi
  obtain ⟨-, pids', gs', rfl, hcode'⟩ := hj
  rw [forks_append_birth_inj (hcode.symm.trans hcode')]

theorem Past.OfStage.not_own {i : Nat} {h : Past} (hi : h.OfStage sh i) : ¬Own h.code := by
  obtain ⟨-, pids, gs, -, hcode⟩ := hi
  intro ho
  rw [hcode, own_append, own_cons] at ho
  cases ho.2.1

/-- The stage itself, and not what its program has forked. -/
def Past.IsStage (sh : Pid) (i : Nat) (h : Past) : Prop := h.OfStage sh i ∧ Own (h.image.getD [])

/-- Stage `i` has been wired, with result `x`, and its code has gone through the events `gs` since
then. -/
def Past.Wired (sh : Pid) (links : List Link) (r : Option Redirect) (i : Nat)
    (x : Except SetupError Unit) (gs : List Event) (h : Past) : Prop :=
  h.root = sh ∧ ∃ pids es fs, pids.length = i ∧ h.code = wired pids es fs ++ gs ∧
    (wireStage (Link.before links i) links[i]? r).Returns es x ∧ (Link.closeAll links).Returns fs ()

theorem Past.Wired.ofStage {links : List Link} {r : Option Redirect} {i : Nat}
    {x : Except SetupError Unit} {gs : List Event} {h : Past} (hw : h.Wired sh links r i x gs) :
    h.OfStage sh i := by
  obtain ⟨hroot, pids, es, fs, hi, hcode, -⟩ := hw
  exact ⟨hroot, pids, ⟨.defaultBrokenPipe, ()⟩ :: es ++ fs ++ gs, hi, by simp [hcode, wired]⟩

def Past.Duplicates (h : Past) : Prop :=
  ∃ a b, (⟨.dup2 a b, .ok ()⟩ : Event) ∈ h.image.getD []

section Pipelines

variable {links : List Link} {q : Nat → Nat} {st : State} {l : CommandLine}
  {rest : UInt8 → Program ρ} {i : Nat} {x : Except SetupError Unit} {gs : List Event}
  {k g : Fd} {b : Bool}

theorem Past.Wired.command {past : Past} (hw : past.Wired sh links l.redirect i x gs)
    (hi : i < l.commands.length) {y : Program ρ}
    (hr : (runStages st l links >>= rest).Reaches past.code y) :
    ∃ c z, l.commands[i]? = some c ∧ y = never z ∧
      (afterWiring st c l.commands.length i x).Reaches gs z := by
  obtain ⟨-, pids, es, fs, rfl, hcode, hwire, hclose⟩ := hw
  rw [hcode] at hr
  obtain ⟨y', h₁, h₂⟩ := hr.of_append
  obtain rfl := h₁.unique (reaches_wired hi hwire hclose)
  obtain ⟨z, hz, rfl⟩ := reaches_never_iff.1 h₂
  exact ⟨_, z, List.getElem?_eq_getElem hi, rfl, hz⟩

theorem Past.Wired.placed {past : Past} (hw : past.Wired sh links l.redirect i x gs)
    (hi : i < l.commands.length) {y : Program ρ}
    (hr : (runStages st l links >>= rest).Reaches past.code y)
    (hbeside : ∀ fd ∈ Link.ends links, Fd.stderr < fd)
    (hL : layout past.events fd = some ⟨.inherited g, b⟩) (hg : g ∈ Link.ends links) :
    ∃ fd', (fd = fd' ∨ past.Duplicates) ∧ Link.Wires links i fd' g := by
  obtain ⟨c, z, -, -, hz⟩ := hw.command hi hr
  obtain ⟨-, pids, es, fs, rfl, hcode, hwire, hclose⟩ := hw
  have hevents : layout past.events = (layout past.code).after (past.image.getD []) :=
    Layout.after_append
  rw [hevents] at hL
  by_cases hdup : past.Duplicates
  · obtain ⟨fd', b', hL'⟩ := Layout.inherited_of_after hL
    rw [hcode] at hL'
    exact ⟨fd', .inr hdup, placed_of_wired hbeside hwire hclose hz hL' hg⟩
  · have hL' := Layout.keeps_after (fun a c hm => hdup ⟨a, c, hm⟩) fd g b hL
    rw [hcode] at hL'
    exact ⟨fd, .inl rfl, placed_of_wired hbeside hwire hclose hz hL' hg⟩

def Returned (st : State) (l : CommandLine) (links : List Link) (es : List Event) : Prop :=
  ∃ es₁ es₂ status, es = es₁ ++ es₂ ∧ (runStages st l links).Returns es₁ status

theorem Returned.notMem_ends {es gs : List Event} (h : Returned st l links es)
    (hL : layout (es ++ gs) fd = some ⟨.inherited g, b⟩) : g ∉ Link.ends links := by
  obtain ⟨es₁, es₂, status, rfl, hret⟩ := h
  have hsplit : layout (es₁ ++ es₂ ++ gs) = (Layout.initial.after es₁).after (es₂ ++ gs) := by
    rw [layout, List.append_assoc, Layout.after_append]
  rw [hsplit] at hL
  obtain ⟨fd', b', hL'⟩ := Layout.inherited_of_after hL
  rw [after_runStages hret] at hL'
  split at hL'
  · cases hL'
  · exact Layout.eq_of_initial hL' ▸ ‹fd' ∉ _›

theorem Executes.returned_of_image {past : Past}
    (hx : Executes (runStages st l links >>= rest) past p) (ho : inChild past.code = false)
    (hi : past.image ≠ none) : Returned st l links past.code := by
  obtain ⟨path, argv, again, k, hr⟩ := hx.became hi
  have hcalls : (runStages st l links).Calls (fun b c => b = false → ∀ x y, c ≠ .exec x y) InShell
      false := by
    refine calls_runStages (fun b c h => ?_) fun c h => ?_
    · rintro rfl x y rfl
      cases h
    · rintro - x y rfl
      cases h
  obtain hne | ⟨status, es₁, es₂, he, hret⟩ := hcalls.of_reaches_call hr
  · exact absurd rfl (hne (by rw [ho]; rfl) path argv)
  · exact ⟨es₁, es₂, status, he, hret⟩

theorem Executes.stage_of_not_own {past : Past}
    (hx : Executes (runStages st l links >>= rest) past p) (ho : ¬Own past.events) :
    (∃ pids gs, pids.length < l.commands.length ∧ past.code = forks pids ++ birth :: gs) ∨
      Returned st l links past.code := by
  cases hc : inChild past.code with
  | true =>
    obtain ⟨y, hy⟩ := hx.reaches
    exact stage_or_returned hy hc
  | false =>
    refine .inr (hx.returned_of_image hc fun hnone => ho ?_)
    rw [Past.events, hnone, Option.getD_none, List.append_nil]
    exact inChild_eq_false_iff.1 hc

theorem Executes.notMem_ends_of_closed {past : Past}
    (hx : Executes (runStages st l links >>= rest) past p) (ho : Own past.events)
    (hclosed : ∀ fd ∈ Link.ends links, ∃ r, (⟨.close fd, r⟩ : Event) ∈ past.code)
    (hL : layout past.events fd = some ⟨.inherited g, b⟩) : g ∉ Link.ends links := by
  have hown : inChild past.code = false := inChild_eq_false_iff.2 (own_append.1 ho).1
  by_cases hret : Returned st l links past.code
  · exact hret.notMem_ends hL
  · have himage : past.image = none := by
      by_contra hi
      exact hret (hx.returned_of_image hown hi)
    rw [Past.events, himage, Option.getD_none, List.append_nil] at hL
    intro hg
    obtain ⟨r, hm⟩ := hclosed g hg
    obtain ⟨y, hy⟩ := hx.reaches
    obtain ⟨y', hrun, -⟩ | ⟨status, es₁, es₂, he, hdone, -⟩ := reaches_bind_iff.1 hy
    · -- the shell itself duplicates nothing
      have hcalls : (runStages st l links).Calls (fun b c => b = true ∨ ∀ x y, c ≠ .dup2 x y)
          InShell false := by
        refine calls_runStages (fun b c h => ?_) fun c h => .inr ?_
        · cases b
          · exact .inr fun x y he => by rw [he] at h; cases h
          · exact .inl rfl
        · rintro x y rfl
          cases h
      have hes := (hcalls.of_reaches hrun).1.of_own (inChild_eq_false_iff.1 hown)
      exact Layout.not_inherited_of_closed
        (fun a c hd => (hes _ hd).resolve_left Bool.false_ne_true a c rfl) hm hL
    · exact hret ⟨es₁, es₂, status, he, hdone⟩

/-- The shell has closed the links or ended, and every stage has been wired or has ended. -/
structure Settled (t : System ι ρ) (H : Pid → Past) (sh : Pid) (links : List Link)
    (r : Option Redirect) : Prop where
  dropped : ∀ p, t.process? sh = some p →
    (∀ fd ∈ Link.ends links, ∃ r, (⟨.close fd, r⟩ : Event) ∈ (H sh).code) ∨
      ∃ e, p.control = .ended e
  wired : ∀ pid p i, t.process? pid = some p → (H pid).OfStage sh i →
    (∃ x gs, (H pid).Wired sh links r i x gs) ∨ ∃ e, p.control = .ended e

/-- What there is to say of a process that has an end of a link: it is the shell, which has not
closed all links, or it belongs to a stage for which `P` holds if it has been wired. -/
def Holds (H : Pid → Past) (sh : Pid) (l : CommandLine) (links : List Link) (pid : Pid)
    (P : Nat → Prop) : Prop :=
  (pid = sh ∧ ¬∀ fd ∈ Link.ends links, ∃ r, (⟨.close fd, r⟩ : Event) ∈ (H sh).code) ∨
    ∃ i < l.commands.length, (H pid).OfStage sh i ∧
      ∀ x gs, (H pid).Wired sh links l.redirect i x gs → P i

theorem Holds.imp {P Q : Nat → Prop} (hPQ : ∀ i, P i → Q i) (h : Holds H sh l links pid P) :
    Holds H sh l links pid Q := by
  obtain hshell | ⟨i, hi, hstage, hP⟩ := h
  · exact .inl hshell
  · exact .inr ⟨i, hi, hstage, fun x gs hw => hPQ i (hP x gs hw)⟩

theorem Holds.of_wired {P : Nat → Prop} (h : Holds H sh l links pid P) (hne : pid ≠ sh)
    (hw : (H pid).Wired sh links l.redirect i x gs) : P i := by
  obtain ⟨he, -⟩ | ⟨j, -, hstage, hP⟩ := h
  · exact absurd he hne
  · obtain rfl := hstage.unique hw.ofStage
    exact hP x gs hw

theorem Settled.ofStage {P : Nat → Prop} (ht : Settled t H sh links l.redirect)
    (hp : t.process? pid = some p) (hrun : ∀ e, p.control ≠ .ended e)
    (h : Holds H sh l links pid P) : ∃ i, (H pid).OfStage sh i ∧ P i := by
  have hnot : ¬∃ e, p.control = .ended e := not_exists.2 hrun
  obtain ⟨rfl, hopen⟩ | ⟨i, -, hstage, hP⟩ := h
  · exact absurd ((ht.dropped p hp).resolve_right hnot) hopen
  · obtain ⟨x, gs, hw⟩ := (ht.wired pid p i hp hstage).resolve_right hnot
    exact ⟨i, hstage, hP x gs hw⟩

section Runs

variable (hl : Linked s₀ sh p₀ links q) (hs : s₀.Numbered)
  (hc : p₀.control = .code (runStages st l links >>= rest)) (h : Run m s₀ H t)
include hl hs hc h

theorem traced (hp : t.process? pid = some p) (hroot : (H pid).root = sh) :
    Descends s₀ t pid (H pid) p₀ p ∧ Executes (runStages st l links >>= rest) (H pid) p := by
  obtain ⟨p₁, h₁, hd⟩ := h.descends hs hp
  rw [hroot, hl.process] at h₁
  obtain rfl := Option.some.inj h₁
  exact ⟨hd, h.executes hs hp (hroot.symm ▸ hl.process) hc⟩

theorem fork_of_isStage (hp : t.process? pid = some p) (hi : i < l.commands.length)
    (hstage : (H pid).IsStage sh i) : ∃ pids fs, pids.length = i ∧
      (H sh).code = forks pids ++ ⟨.fork, .ok (.parent pid)⟩ :: fs := by
  obtain ⟨⟨hroot, pids, gs, rfl, hcode⟩, himage⟩ := hstage
  obtain ⟨y, hy⟩ := (traced hl hs hc h hp hroot).2.reaches
  have hchild : (H pid).Child (forks pids) :=
    ⟨own_forks pids, gs, hcode, own_of_reaches_stage hi (hcode ▸ hy), himage⟩
  obtain ⟨fs, hfs⟩ := h.parents hs (hs sh p₀ hl.process) pid _ hroot hchild
  exact ⟨pids, fs, rfl, hfs⟩

theorem isStage_unique {pid' : Pid} {p' : Process ι ρ} (hp : t.process? pid = some p)
    (hp' : t.process? pid' = some p') (hi : i < l.commands.length)
    (hstage : (H pid).IsStage sh i) (hstage' : (H pid').IsStage sh i) : pid = pid' := by
  obtain ⟨pids, fs, hlen, hfork⟩ := fork_of_isStage hl hs hc h hp hi hstage
  obtain ⟨pids', fs', hlen', hfork'⟩ := fork_of_isStage hl hs hc h hp' hi hstage'
  have hlength : (forks pids).length = (forks pids').length := by
    simp [forks, hlen, hlen']
  obtain ⟨-, he⟩ := List.append_inj (hfork.symm.trans hfork') hlength
  exact parent_inj (List.cons.inj he).1

theorem not_refers_of_ended (hp : t.process? pid = some p) (hroot : (H pid).root = sh)
    (he : ∃ e, p.control = .ended e) : ¬t.Refers p fd r := by
  intro hf
  obtain ⟨e, he⟩ := he
  obtain ⟨d, f, hfd, -⟩ := System.refers_iff.1 hf
  obtain he | he := (traced hl hs hc h hp hroot).1.ended e he
  · rw [hc] at he; cases he
  · rw [he] at hfd; cases hfd

/-- Who refers to an end of a link: the shell while it has not closed them all, and processes of
stages; these have it in its place once they have been wired. -/
theorem holds_of_refers (hp : t.process? pid = some p) {j : Nat} (hj : j < links.length)
    (hr : System.IsEnd r (q j)) (hg : g ∈ Link.ends links)
    (hone : ∀ pid p fd, s₀.process? pid = some p → s₀.Refers p fd r → pid = sh ∧ fd = g)
    (hf : t.Refers p fd r) : (∀ e, p.control ≠ .ended e) ∧ Holds H sh l links pid fun i =>
      ∃ fd', (fd = fd' ∨ (H pid).Duplicates) ∧ Link.Wires links i fd' g := by
  obtain ⟨hroot, b, hL⟩ := h.inherited_of_refers hs (hl.pipes j hj) hr hone hp hf
  obtain ⟨hd, hx⟩ := traced hl hs hc h hp hroot
  refine ⟨fun e he => not_refers_of_ended hl hs hc h hp hroot ⟨e, he⟩ hf, ?_⟩
  by_cases ho : Own (H pid).events
  · -- it is the shell
    obtain rfl : pid = sh := (hd.own ho).trans hroot
    exact .inl ⟨rfl, fun hclosed => hx.notMem_ends_of_closed ho hclosed hL hg⟩
  · obtain ⟨pids, gs, hlt, hcode⟩ | hret := hx.stage_of_not_own ho
    · refine .inr ⟨pids.length, hlt, ⟨hroot, pids, gs, rfl, hcode⟩, fun x gs hw => ?_⟩
      obtain ⟨y, hy⟩ := hx.reaches
      exact hw.placed hlt hy hl.beside hL hg
    · exact absurd hg (hret.notMem_ends hL)

theorem holds_of_writer (hp : t.process? pid = some p) {j : Nat} (hj : j < links.length)
    (hf : t.Refers p fd (.writeEnd (q j))) : (∀ e, p.control ≠ .ended e) ∧
      Holds H sh l links pid fun i => i = j ∧ (fd = Fd.stdout ∨ (H pid).Duplicates) := by
  have hk : links[j]? = some links[j] := List.getElem?_eq_getElem hj
  obtain ⟨hrun, hholds⟩ := holds_of_refers hl hs hc h hp hj (.inr rfl) (mem_ends_of_getElem? hk).2
    (hl.writer j _ hk) hf
  refine ⟨hrun, hholds.imp ?_⟩
  rintro i ⟨fd', hfd, hwires⟩
  obtain ⟨rfl, rfl⟩ := (wires_writeEnd_iff hl.nodup hk).1 hwires
  exact ⟨rfl, hfd⟩

theorem holds_of_reader (hp : t.process? pid = some p) {j : Nat} (hj : j < links.length)
    (hf : t.Refers p fd (.readEnd (q j))) : (∀ e, p.control ≠ .ended e) ∧
      Holds H sh l links pid fun i => i = j + 1 ∧ (fd = Fd.stdin ∨ (H pid).Duplicates) := by
  have hk : links[j]? = some links[j] := List.getElem?_eq_getElem hj
  obtain ⟨hrun, hholds⟩ := holds_of_refers hl hs hc h hp hj (.inl rfl) (mem_ends_of_getElem? hk).1
    (hl.reader j _ hk) hf
  refine ⟨hrun, hholds.imp ?_⟩
  rintro i ⟨fd', hfd, hwires⟩
  obtain ⟨rfl, rfl⟩ := (wires_readEnd_iff hl.nodup hk).1 hwires
  exact ⟨rfl, hfd⟩

end Runs

theorem Past.Wired.layout_eq {past : Past} {O : Fd → Prop}
    (hw : past.Wired sh links l.redirect i (.ok ()) []) (hf : Layout.initial.Fresh O past.code)
    (ho : ∀ fd ≤ Fd.stdout, O fd) (hends : ∀ fd ∈ Link.ends links, Fd.stderr < fd ∧ O fd) :
    layout past.code Fd.stdin = Layout.fed (Link.before links i) Fd.stdin ∧
      layout past.code Fd.stdout = some (Layout.output links[i]? l.redirect) := by
  obtain ⟨-, pids, es, fs, rfl, hcode, hwire, hclose⟩ := hw
  rw [List.append_nil] at hcode
  have hne : ∀ fd ∈ Link.ends links, fd ≠ Fd.stdin ∧ fd ≠ Fd.stdout := fun fd hfd =>
    ⟨Nat.ne_of_gt (Nat.lt_trans (by decide) (hends fd hfd).1),
      Nat.ne_of_gt (Nat.lt_trans (by decide) (hends fd hfd).1)⟩
  have hstreams := streams_of_wireStage hwire (fresh_of_wired (hcode ▸ hf))
    ⟨ho _ (by decide), ho _ (by decide)⟩
    (fun k hk => ⟨(hne _ (mem_ends_of_before hk)).1, (hends _ (mem_ends_of_before hk)).2⟩)
    fun k hk => hne _ (mem_ends_of_getElem? hk).2
  rw [hcode, layout_wired, after_closeAll hclose, after_closeAll hclose,
    if_neg fun h => (hne _ h).1 rfl, if_neg fun h => (hne _ h).2 rfl]
  exact hstreams

theorem Past.Wired.opening {past : Past} {r : Redirect}
    (hw : past.Wired sh links l.redirect i (.ok ()) []) (hlast : links[i]? = none)
    (hr : l.redirect = some r) : ∃ es fd fs,
      past.code = es ++ ⟨.openFile r.target (.create r.mode), .ok fd⟩ ::
        ⟨.dup2 fd Fd.stdout, .ok ()⟩ :: ⟨.close fd, .ok ()⟩ :: fs ∧
      (Link.closeAll links).Returns fs () ∧ ∀ e ∈ es, ∀ path, e.call ≠ .chdir path := by
  obtain ⟨-, pids, ws, fs, -, hcode, hwire, hclose⟩ := hw
  rw [hlast, hr] at hwire
  obtain ⟨ws, fd, rfl, hws⟩ := returns_wireStage_target hwire
  refine ⟨forks pids ++ birth :: ⟨.defaultBrokenPipe, ()⟩ :: ws, fd, fs, ?_, hclose, ?_⟩
  · rw [hcode, wired]
    simp
  · simpa [forks, birth, or_imp, forall_and] using hws

theorem Past.Wired.defaultBrokenPipe_mem {past : Past}
    (hw : past.Wired sh links l.redirect i x gs) :
    (⟨.defaultBrokenPipe, ()⟩ : Event) ∈ past.events := by
  obtain ⟨-, pids, es, fs, -, hcode, -⟩ := hw
  rw [Past.events, hcode]
  simp [wired]

/-- Whether process `pid`, which is `p` by now, has as its standard output what it has opened itself
as the target of `r`, at some moment of the run. With the credentials of the shell `p₀` and from its
directory the target was file `k` then, and the open file that was made for it is the output. -/
def Redirected (m : Machine ι) (s₀ : System ι ρ) (H : Pid → Past) (t : System ι ρ)
    (p₀ : Process ι ρ) (pid : Pid) (p : Process ι ρ) (r : Redirect) : Prop :=
  ∃ es fd fs x s₁ s₂ k position,
    (H pid).code = es ++ ⟨.openFile r.target (.create r.mode), .ok fd⟩ :: fs ∧
    Moment m s₀ H t pid es ⟨.openFile r.target (.create r.mode), .ok fd⟩ x s₁ s₂ ∧
    s₁.files.openAs p₀.credentials p₀.directory r.target (.create r.mode) = .ok (s₂.files, k) ∧
    s₁.openFiles.get? s₁.openFiles.above = none ∧
    s₂.openFiles.get? s₁.openFiles.above = some ((OpenMode.create r.mode).openFile k) ∧
    t.openFiles.get? s₁.openFiles.above =
      some { (OpenMode.create r.mode).openFile k with position } ∧
    p.descriptors.get? Fd.stdout = some ⟨s₁.openFiles.above, false⟩

/-- Process `pid`, which is `p`, as the command of stage `i` finds it when it starts: `p₀` is the
shell from which it comes. -/
structure Ready (m : Machine ι) (s₀ : System ι ρ) (H : Pid → Past) (t : System ι ρ)
    (p₀ : Process ι ρ) (links : List Link) (l : CommandLine) (q : Nat → Nat) (i : Nat) (pid : Pid)
    (p : Process ι ρ) : Prop where
  /-- the input of the first stage -/
  input : i = 0 → p.descriptors.get? Fd.stdin = p₀.descriptors.get? Fd.stdin
  /-- the output of the last one, without a redirection and with one -/
  output : i + 1 = l.commands.length → l.redirect = none →
    p.descriptors.get? Fd.stdout = p₀.descriptors.get? Fd.stdout
  target : i + 1 = l.commands.length → ∀ r, l.redirect = some r → Redirected m s₀ H t p₀ pid p r
  reads : ∀ j < links.length, ∀ fd, t.Refers p fd (.readEnd (q j)) ↔ fd = Fd.stdin ∧ i = j + 1
  writes : ∀ j < links.length, ∀ fd, t.Refers p fd (.writeEnd (q j)) ↔ fd = Fd.stdout ∧ i = j
  /-- programs keep the ends of links -/
  lasting : ∀ j < links.length, ∀ fd n d, System.IsEnd n (q j) → t.Refers p fd n →
    p.descriptors.get? fd = some d → d.closeOnExec = false
  brokenPipe : p.ignoresBrokenPipe = false

theorem Fits.refers_of_duplicated {L : Layout} (h : Fits s₀ t p₀ L p)
    (hL : L fd = some ⟨.inherited g, true⟩) (hr : s₀.Refers p₀ g r) (hg : System.Grown s₀ t) :
    t.Refers p fd r ∧ ∀ d, p.descriptors.get? fd = some d → d.closeOnExec = false := by
  obtain ⟨d₀, f₀, hd₀, hf₀, rfl⟩ := System.refers_iff.1 hr
  obtain ⟨position, hf⟩ := hg.kept _ f₀ hf₀
  have hd := h fd
  rw [hL] at hd
  have hd : p.descriptors.get? fd = some { d₀ with closeOnExec := false } := by
    rw [hd, hd₀]
    rfl
  refine ⟨System.refers_iff.2 ⟨_, _, hd, hf, rfl⟩, fun d h => ?_⟩
  obtain rfl := Option.some.inj (hd.symm.trans h)
  rfl

theorem Linked.isOpen (hl : Linked s₀ sh p₀ links q) : ∀ fd ∈ Link.ends links, p₀.IsOpen fd := by
  have hopen : ∀ {fd r}, s₀.Refers p₀ fd r → p₀.IsOpen fd := by
    intro fd r hr hnone
    obtain ⟨d, f, hd, -⟩ := System.refers_iff.1 hr
    rw [hnone] at hd
    cases hd
  intro fd hfd
  obtain ⟨k, hk, hfd⟩ := List.mem_flatMap.1 hfd
  obtain ⟨j, hj⟩ := List.mem_iff_getElem?.1 hk
  obtain rfl | rfl : fd = k.readEnd ∨ fd = k.writeEnd := by simpa using hfd
  · exact hopen (hl.readEnd j k hj)
  · exact hopen (hl.writeEnd j k hj)

section Starts

variable (hl : Linked s₀ sh p₀ links q) (hs : s₀.Numbered)
  (hc : p₀.control = .code (runStages st l links >>= rest)) (h : Run m s₀ H t)
  (hp : t.process? pid = some p) (hcode : p.control.isCode = true) (hi : i < l.commands.length)
  (hw : (H pid).Wired sh links l.redirect i (.ok ()) [])
include hl hs hc h hp hcode hw

theorem layout_of_wires (hg : Link.Wires links i fd g) :
    layout (H pid).code fd = some ⟨.inherited g, true⟩ := by
  obtain ⟨-, -, hfresh⟩ := (traced hl hs hc h hp hw.1).1.code hcode
  obtain ⟨hin, hout⟩ := hw.layout_eq hfresh
    (fun fd hfd => hl.streams fd (Nat.le_trans hfd (by decide)))
    fun fd hfd => ⟨hl.beside fd hfd, hl.isOpen fd hfd⟩
  obtain ⟨rfl, k, hk, rfl⟩ | ⟨rfl, k, hk, rfl⟩ := hg
  · rw [hin, hk]
    rfl
  · rw [hout, hk]
    rfl

/-- The target of the redirection is the output of the last stage. -/
theorem redirected_of_wired (hn : links.length + 1 = l.commands.length)
    (hlast : i + 1 = l.commands.length) {r : Redirect} (hr : l.redirect = some r) :
    Redirected m s₀ H t p₀ pid p r := by
  obtain ⟨hd, hx⟩ := traced hl hs hc h hp hw.1
  obtain ⟨himage, -, hfresh⟩ := hd.code hcode
  have hends : ∀ fd ∈ Link.ends links, Fd.stderr < fd ∧ p₀.IsOpen fd :=
    fun fd hfd => ⟨hl.beside fd hfd, hl.isOpen fd hfd⟩
  have hstdout : Fd.stdout ∉ Link.ends links := fun hm => absurd (hends _ hm).1 (by decide)
  have hlinks : links[i]? = none := List.getElem?_eq_none (by omega)
  obtain ⟨-, hout⟩ := hw.layout_eq hfresh
    (fun fd hfd => hl.streams fd (Nat.le_trans hfd (by decide))) hends
  obtain ⟨es, fd, fs, hpast, hclose, hes⟩ := hw.opening hlinks hr
  -- had the target been opened as the output, it would have been closed
  have hne : fd ≠ Fd.stdout := by
    rintro rfl
    rw [hpast, hlinks, layout, Layout.after_append, Layout.after_cons, Layout.after_cons,
      Layout.after_cons, after_closeAll hclose, if_neg hstdout] at hout
    simp [Layout.read] at hout
  have hcalls : (Link.closeAll links).Calls (fun _ c => c ≠ .fork) (fun _ _ => True) true :=
    calls_closeAll (by simp) trivial
  have ho : Own (⟨.openFile r.target (.create r.mode), .ok fd⟩ ::
      ⟨.dup2 fd Fd.stdout, .ok ()⟩ :: ⟨.close fd, .ok ()⟩ :: fs) := by
    simp only [own_cons]
    exact ⟨rfl, rfl, rfl, own_of_not_fork ((hcalls.of_reaches hclose).1.imp fun _ _ h => h)⟩
  have hnot : ¬Refusal (.openFile r.target (.create r.mode)) (.ok fd) := by
    intro hr
    cases hr
  obtain ⟨x, s₁, s₂, hm⟩ := h.moment hs hpast ho himage hnot (by simp)
  obtain ⟨k, hopen, hnew, position, hkept⟩ := hm.opened
  have hroot : s₀.process? (H pid).root = some p₀ := hw.1.symm ▸ hl.process
  have hdirectory := hm.directory_eq hs hroot fun path hmem => hes _ hmem path rfl
  rw [hm.credentials_eq hs hroot, hdirectory] at hopen
  refine ⟨es, fd, _, x, s₁, s₂, k, position, hpast, hm, hopen,
    Table.get?_eq_none_of_above_le (Nat.le_refl _), hnew, hkept, ?_⟩
  refine hm.descriptor hs hp hpast hcode ?_
  rw [layout, Layout.after_cons, Layout.after_cons, after_closeAll hclose, if_neg hstdout]
  simp [Layout.read, Layout.initial, hne, hne.symm, Slot.duplicate]

include hi

theorem refers_iff_wires {j : Nat} (hj : j < links.length) (hr : System.IsEnd r (q j))
    (hg : g ∈ Link.ends links) (hrefers : s₀.Refers p₀ g r)
    (hone : ∀ pid x fd, s₀.process? pid = some x → s₀.Refers x fd r → pid = sh ∧ fd = g) :
    t.Refers p fd r ↔ Link.Wires links i fd g := by
  obtain ⟨hd, hx⟩ := traced hl hs hc h hp hw.1
  obtain ⟨himage, hfits, -⟩ := hd.code hcode
  constructor
  · intro hf
    obtain ⟨-, b, hL⟩ := h.inherited_of_refers hs (hl.pipes j hj) hr hone hp hf
    obtain ⟨y, hy⟩ := hx.reaches
    obtain ⟨fd', rfl | ⟨a, c, hdup⟩, hplace⟩ := hw.placed hi hy hl.beside hL hg
    · exact hplace
    · rw [himage] at hdup
      cases hdup
  · intro hf
    have hL := layout_of_wires hl hs hc h hp hcode hw hf
    exact (hfits.refers_of_duplicated hL hrefers h.grown).1

theorem ready_of_wired (hn : links.length + 1 = l.commands.length) :
    Ready m s₀ H t p₀ links l q i pid p := by
  obtain ⟨hd, hx⟩ := traced hl hs hc h hp hw.1
  obtain ⟨himage, hfits, hfresh⟩ := hd.code hcode
  obtain ⟨hin, hout⟩ := hw.layout_eq hfresh
    (fun fd hfd => hl.streams fd (Nat.le_trans hfd (by decide)))
    fun fd hfd => ⟨hl.beside fd hfd, hl.isOpen fd hfd⟩
  have hlast : i + 1 = l.commands.length → links[i]? = none := fun he =>
    List.getElem?_eq_none (by omega)
  have hreads : ∀ j < links.length, ∀ fd, t.Refers p fd (.readEnd (q j)) ↔
      fd = Fd.stdin ∧ i = j + 1 := by
    intro j hj fd
    have hk : links[j]? = some links[j] := List.getElem?_eq_getElem hj
    rw [← wires_readEnd_iff hl.nodup hk]
    exact refers_iff_wires hl hs hc h hp hcode hi hw hj (.inl rfl) (mem_ends_of_getElem? hk).1
      (hl.readEnd j _ hk) (hl.reader j _ hk)
  have hwrites : ∀ j < links.length, ∀ fd, t.Refers p fd (.writeEnd (q j)) ↔
      fd = Fd.stdout ∧ i = j := by
    intro j hj fd
    have hk : links[j]? = some links[j] := List.getElem?_eq_getElem hj
    rw [← wires_writeEnd_iff hl.nodup hk]
    exact refers_iff_wires hl hs hc h hp hcode hi hw hj (.inr rfl) (mem_ends_of_getElem? hk).2
      (hl.writeEnd j _ hk) (hl.writer j _ hk)
  refine ⟨?_, ?_, ?_, hreads, hwrites, ?_, hd.brokenPipe ?_⟩
  · rintro rfl
    exact hfits.eq_of_intact (.inl hin)
  · intro he hr
    rw [hr, hlast he] at hout
    exact hfits.eq_of_intact (.inl hout)
  · exact fun he r hr => redirected_of_wired hl hs hc h hp hcode hw hn he hr
  · intro j hj fd r d hr hf hd
    have hk : links[j]? = some links[j] := List.getElem?_eq_getElem hj
    obtain ⟨g, hg, hrefers⟩ : ∃ g, Link.Wires links i fd g ∧ s₀.Refers p₀ g r := by
      obtain rfl | rfl := hr
      · exact ⟨_, (wires_readEnd_iff hl.nodup hk).2 ((hreads j hj fd).1 hf), hl.readEnd j _ hk⟩
      · exact ⟨_, (wires_writeEnd_iff hl.nodup hk).2 ((hwrites j hj fd).1 hf), hl.writeEnd j _ hk⟩
    have hL := layout_of_wires hl hs hc h hp hcode hw hg
    exact (hfits.refers_of_duplicated hL hrefers h.grown).2 d hd
  · exact hw.defaultBrokenPipe_mem

end Starts

/-- Whether stage `i` has ended or does not refer to `r` any more. -/
def GivenUp (t : System ι ρ) (H : Pid → Past) (sh : Pid) (i : Nat) (r : Resource) : Prop :=
  ∀ pid p, t.process? pid = some p → (H pid).OfStage sh i →
    (∃ e, p.control = .ended e) ∨ ∀ fd, ¬t.Refers p fd r

section Ends

variable (hl : Linked s₀ sh p₀ links q) (hs : s₀.Numbered)
  (hc : p₀.control = .code (runStages st l links >>= rest)) (h : Run m s₀ H t)
include hl hs hc h

theorem not_isHeld_of_givenUp {i : Nat} (hg : GivenUp t H sh i r)
    (hr : ∀ pid p fd, t.process? pid = some p → t.Refers p fd r → (H pid).OfStage sh i) :
    t.isHeld r = false := by
  refine Bool.eq_false_iff.2 fun hheld => ?_
  obtain ⟨pid, p, fd, hp, hf⟩ := System.isHeld_iff_refers.1 hheld
  have hstage := hr pid p fd hp hf
  obtain he | hn := hg pid p hp hstage
  · exact not_refers_of_ended hl hs hc h hp hstage.1 he hf
  · exact hn fd hf

end Ends

end Pipelines

namespace TwoStages

def cat : Command := ⟨Bytes.ofAscii "cat", []⟩

def line : CommandLine := ⟨[.command cat, .pipe, .command cat], none⟩

def links : List Link := [⟨3, 4⟩]

def machine : Machine Unit := ⟨fun _ _ => (), fun _ => ⟨.clock, fun _ => ()⟩⟩

def openFiles : Table OpenFile :=
  ⟨[(0, ⟨.source 0, true, false, false, 0⟩), (1, ⟨.file 0, false, true, true, 0⟩),
    (2, ⟨.file 0, false, true, true, 0⟩), (3, ⟨.readEnd 0, true, false, false, 0⟩),
    (4, ⟨.writeEnd 0, false, true, false, 0⟩)], by decide⟩

def descriptors : Table Descriptor :=
  ⟨[(0, ⟨0, false⟩), (1, ⟨1, false⟩), (2, ⟨2, false⟩), (3, ⟨3, true⟩), (4, ⟨4, true⟩)], by decide⟩

def process (parent : Pid) (q : Program UInt8) (ds : Table Descriptor) (ignores : Bool) :
    Process Unit UInt8 :=
  ⟨parent, .code q, ds, 0, none, ⟨0, 0, false⟩, ignores, false, 16, none, none⟩

def system (ps : Table (Process Unit UInt8)) (next : Pid) : System Unit UInt8 :=
  ⟨⟨Table.empty⟩, openFiles, Table.empty.set 0 [], 8, Table.empty, ps, next, 0⟩

def shell : Process Unit UInt8 :=
  process 0 (runStages (State.ofSearchPath none) line links) descriptors true

def boot : System Unit UInt8 := system (Table.empty.set 1 shell) 2

def forked (p x y : Process Unit UInt8) : System Unit UInt8 :=
  system (((Table.empty.set 1 p).set 2 x).set 3 y) 4

theorem process?_boot {pid : Pid} {p : Process Unit UInt8} (hp : boot.process? pid = some p) :
    pid = 1 ∧ p = shell := by
  have hp := (Table.get?_set _ 1 pid _).symm.trans hp
  split at hp
  · exact ⟨‹_›, (Option.some.inj hp).symm⟩
  · cases hp

theorem process?_forked {pid : Pid} {a b c p : Process Unit UInt8}
    (hp : (forked a b c).process? pid = some p) :
    pid = 1 ∧ p = a ∨ pid = 2 ∧ p = b ∨ pid = 3 ∧ p = c := by
  have hp := (Table.get?_set _ 3 pid _).symm.trans hp
  split at hp
  · exact .inr (.inr ⟨‹_›, (Option.some.inj hp).symm⟩)
  have hp := (Table.get?_set _ 2 pid _).symm.trans hp
  split at hp
  · exact .inr (.inl ⟨‹_›, (Option.some.inj hp).symm⟩)
  have hp := (Table.get?_set _ 1 pid _).symm.trans hp
  split at hp
  · exact .inl ⟨‹_›, (Option.some.inj hp).symm⟩
  · cases hp

theorem refers_shell {fd : Fd} {r : Resource} (h : boot.Refers shell fd r) :
    (fd, r) ∈ [(0, Resource.source 0), (1, .file 0), (2, .file 0), (3, .readEnd 0),
      (4, .writeEnd 0)] := by
  obtain ⟨d, f, hd, hf, rfl⟩ := System.refers_iff.1 h
  have hd := (Table.get?_eq_some_iff descriptors fd d).1 hd
  simp only [descriptors, List.mem_cons, Prod.mk.injEq, List.not_mem_nil, or_false] at hd
  obtain ⟨rfl, rfl⟩ | ⟨rfl, rfl⟩ | ⟨rfl, rfl⟩ | ⟨rfl, rfl⟩ | ⟨rfl, rfl⟩ := hd <;>
    obtain rfl := Option.some.inj hf <;> decide

theorem linked : Linked boot 1 shell links fun _ => 0 := by
  have hlink : ∀ {j : Nat} {k : Link}, links[j]? = some k → k = ⟨3, 4⟩ := by
    rintro (_ | j) k hk
    · exact (Option.some.inj hk).symm
    · cases hk
  refine ⟨rfl, by decide, ?_, by decide, fun j hj => by decide, ?_, ?_, ?_, ?_⟩
  · have hopen : ∀ fd ≤ Fd.stderr, (descriptors.get? fd).isSome := by decide
    exact fun fd hfd => Option.isSome_iff_ne_none.1 (hopen fd hfd)
  · intro j k hk
    obtain rfl := hlink hk
    exact ⟨3, _, rfl, rfl⟩
  · intro j k hk
    obtain rfl := hlink hk
    exact ⟨4, _, rfl, rfl⟩
  · intro j k hk pid p fd hp hf
    obtain rfl := hlink hk
    obtain ⟨rfl, rfl⟩ := process?_boot hp
    simpa using refers_shell hf
  · intro j k hk pid p fd hp hf
    obtain rfl := hlink hk
    obtain ⟨rfl, rfl⟩ := process?_boot hp
    simpa using refers_shell hf

theorem numbered : boot.Numbered := by
  intro pid p hp
  rw [(process?_boot hp).1]
  exact Nat.one_lt_two

def dropped : Table Descriptor := (descriptors.erase 3).erase 4

def feeding : Table Descriptor := ((descriptors.set 1 ⟨4, false⟩).erase 3).erase 4

def fed : Table Descriptor := ((descriptors.set 0 ⟨3, false⟩).erase 3).erase 4

theorem run_wired (m : Machine Unit) : ∃ H q₁ q₂ q₃,
    Run m boot H (forked (process 0 q₁ dropped true) (process 1 q₂ feeding false)
      (process 1 q₃ fed false)) ∧
    (H 1).code = forks [2, 3] ++ [⟨.close 3, .ok ()⟩, ⟨.close 4, .ok ()⟩] ∧
    (H 2).Wired 1 links none 0 (.ok ()) [] ∧ (H 3).Wired 1 links none 1 (.ok ()) [] := by
  let ds := descriptors
  have h : Run m boot _
    (system ((Table.empty.set 1 (process 0 _ ds true)).set 2 (process 1 _ ds true)) 3) :=
    ((Run.start (m := m)).forked (rfl : boot.process? 1 = some _) rfl rfl :)
  have h : Run m boot _
    (forked (process 0 _ ds true) (process 1 _ ds true) (process 1 _ ds true)) :=
    (h.forked (rfl : System.process? _ 1 = some _) rfl rfl :)
  -- the shell
  have h : Run m boot _
    (forked (process 0 _ (ds.erase 3) true) (process 1 _ ds true) (process 1 _ ds true)) :=
    (h.answered (rfl : System.process? _ 1 = some _) rfl rfl :)
  have h : Run m boot _
    (forked (process 0 _ dropped true) (process 1 _ ds true) (process 1 _ ds true)) :=
    (h.answered (rfl : System.process? _ 1 = some _) rfl rfl :)
  -- the first stage
  let ds₁ := ds.set 1 ⟨4, false⟩
  have h : Run m boot _
    (forked (process 0 _ dropped true) (process 1 _ ds false) (process 1 _ ds true)) :=
    (h.answered (rfl : System.process? _ 2 = some _) rfl rfl :)
  have h : Run m boot _
    (forked (process 0 _ dropped true) (process 1 _ ds₁ false) (process 1 _ ds true)) :=
    (h.answered (rfl : System.process? _ 2 = some _) rfl rfl :)
  have h : Run m boot _
    (forked (process 0 _ dropped true) (process 1 _ (ds₁.erase 3) false) (process 1 _ ds true)) :=
    (h.answered (rfl : System.process? _ 2 = some _) rfl rfl :)
  have h : Run m boot _
    (forked (process 0 _ dropped true) (process 1 _ feeding false) (process 1 _ ds true)) :=
    (h.answered (rfl : System.process? _ 2 = some _) rfl rfl :)
  -- the second stage
  let ds₂ := ds.set 0 ⟨3, false⟩
  have h : Run m boot _
    (forked (process 0 _ dropped true) (process 1 _ feeding false) (process 1 _ ds false)) :=
    (h.answered (rfl : System.process? _ 3 = some _) rfl rfl :)
  have h : Run m boot _
    (forked (process 0 _ dropped true) (process 1 _ feeding false) (process 1 _ ds₂ false)) :=
    (h.answered (rfl : System.process? _ 3 = some _) rfl rfl :)
  have h : Run m boot _ (forked (process 0 _ dropped true) (process 1 _ feeding false)
    (process 1 _ (ds₂.erase 3) false)) :=
    (h.answered (rfl : System.process? _ 3 = some _) rfl rfl :)
  have h : Run m boot _ (forked (process 0 _ dropped true) (process 1 _ feeding false)
    (process 1 _ fed false)) :=
    (h.answered (rfl : System.process? _ 3 = some _) rfl rfl :)
  have hclose : (Link.closeAll links).Returns [⟨.close 3, .ok ()⟩, ⟨.close 4, .ok ()⟩] () :=
    .next rfl (.next rfl (.refl _))
  exact ⟨_, _, _, _, h, rfl,
    ⟨rfl, [], [⟨.dup2 4 1, .ok ()⟩], _, rfl, rfl, .next rfl (.refl _), hclose⟩,
    ⟨rfl, [2], [⟨.dup2 3 0, .ok ()⟩], _, rfl, rfl, .next rfl (.refl _), hclose⟩⟩

section Settled

variable {a b c : Process Unit UInt8} {H : Pid → Past}
  (hown : (H 1).code = forks [2, 3] ++ [⟨.close 3, .ok ()⟩, ⟨.close 4, .ok ()⟩])
include hown

theorem not_ofStage_shell (i : Nat) : ¬(H 1).OfStage 1 i := fun hi =>
  hi.not_own (hown ▸ own_append.2 ⟨own_forks _, own_of_not_fork (by simp)⟩)

variable (hsecond : (H 3).Wired 1 links none 1 (.ok ()) [])
include hsecond

theorem settled (hfirst : (H 2).Wired 1 links none 0 (.ok ()) []) :
    Settled (forked a b c) H 1 links none := by
  have hclosed : ∀ fd ∈ Link.ends links, ∃ r, (⟨.close fd, r⟩ : Event) ∈ (H 1).code := by
    intro fd hfd
    have hfd : fd = 3 ∨ fd = 4 := by simpa [links, Link.ends] using hfd
    rw [hown]
    obtain rfl | rfl := hfd
    · exact ⟨.ok (), by simp⟩
    · exact ⟨.ok (), by simp⟩
  refine ⟨fun _ _ => .inl hclosed, fun pid p i hp hi => .inl ?_⟩
  obtain ⟨rfl, -⟩ | ⟨rfl, -⟩ | ⟨rfl, -⟩ := process?_forked hp
  · exact absurd hi (not_ofStage_shell hown i)
  · obtain rfl := hi.unique hfirst.ofStage
    exact ⟨_, _, hfirst⟩
  · obtain rfl := hi.unique hsecond.ofStage
    exact ⟨_, _, hsecond⟩

theorem givenUp (hb : ∃ e, b.control = .ended e) :
    GivenUp (forked a b c) H 1 0 (.writeEnd 0) := by
  intro pid p hp hi
  obtain ⟨rfl, -⟩ | ⟨rfl, rfl⟩ | ⟨rfl, -⟩ := process?_forked hp
  · exact absurd hi (not_ofStage_shell hown 0)
  · exact .inl hb
  · cases hi.unique hsecond.ofStage

end Settled

end TwoStages

namespace OneStage

open TwoStages (cat descriptors machine openFiles process)

def line : CommandLine := ⟨[.command cat], some ⟨Bytes.ofAscii "/f", .truncate⟩⟩

def files (s : Bytes) : FileTree :=
  ⟨⟨[(0, ⟨.directory 0 [(Bytes.ofAscii "f", 1)], 0o755, 0, 0⟩), (1, ⟨.regular s, 0o644, 0, 0⟩)],
    (by decide : [0, 1].Nodup)⟩⟩

def system (s : Bytes) (fs : Table OpenFile) (ps : Table (Process Unit UInt8)) (next : Pid) :
    System Unit UInt8 :=
  ⟨files s, fs, Table.empty.set 0 [], 8, Table.empty, ps, next, 0⟩

def shell : Process Unit UInt8 :=
  process 0 (runStages (State.ofSearchPath none) line []) descriptors true

def boot : System Unit UInt8 := system [120] openFiles (Table.empty.set 1 shell) 2

theorem openAs_f : (files [120]).openAs ⟨0, 0, false⟩ 0 (Bytes.ofAscii "/f") (.create .truncate) =
    .ok (files [], 1) := by
  have hplace : (files [120]).place ⟨0, 0, false⟩ 0 (Bytes.ofAscii "/f") =
      .ok (.entry 0 (Bytes.ofAscii "f") (some 1) false) := by
    show (files [120]).follow _ FileTree.linkLimit 0 [Bytes.ofAscii "f"] false = _
    rw [FileTree.follow]
    rfl
  show ((files [120]).place ⟨0, 0, false⟩ 0 (Bytes.ofAscii "/f") >>= _) = _
  rw [hplace]
  rfl

theorem linked : Linked boot 1 shell [] fun _ => 0 := by
  have hopen : ∀ fd ≤ Fd.stderr, (descriptors.get? fd).isSome := by decide
  exact ⟨rfl, by decide, fun fd hfd => Option.isSome_iff_ne_none.1 (hopen fd hfd), by decide,
    by simp, by simp, by simp, by simp, by simp⟩

theorem numbered : boot.Numbered := by
  intro pid p hp
  have hp := (Table.get?_set _ 1 pid _).symm.trans hp
  split at hp
  · exact ‹pid = 1› ▸ Nat.one_lt_two
  · cases hp

theorem run_wired : ∃ H t x, Run machine boot H t ∧ t.process? 2 = some x ∧
    x.control.isCode = true ∧ (H 2).Wired 1 [] line.redirect 0 (.ok ()) [] := by
  let ds := descriptors
  let file : OpenFile := (OpenMode.create .truncate).openFile 1
  let pair (a b : Process Unit UInt8) := (Table.empty.set 1 a).set 2 b
  have h : Run machine boot _ (system [120] openFiles
    (pair (process 0 _ ds true) (process 1 _ ds true)) 3) :=
    ((Run.start (m := machine)).forked (rfl : boot.process? 1 = some _) rfl rfl :)
  have h : Run machine boot _ (system [120] openFiles
    (pair (process 0 _ ds true) (process 1 _ ds false)) 3) :=
    (h.answered (rfl : System.process? _ 2 = some _) rfl rfl :)
  have hpath : ∀ a c, (system [120] openFiles (pair a (process 1 c ds false)) 3).openPath 2
      (process 1 c ds false) (Bytes.ofAscii "/f") (.create .truncate) =
      .ok (system [] (openFiles.set 5 file) (pair a (process 1 c (ds.set 5 ⟨5, true⟩) false)) 3,
        5) := by
    intro a c
    show ((files [120]).openAs ⟨0, 0, false⟩ 0 (Bytes.ofAscii "/f") (.create .truncate) >>= _) = _
    rw [openAs_f]
    rfl
  have hanswer : ∀ a c, (system [120] openFiles (pair a (process 1 c ds false)) 3).answer 2
      (process 1 c ds false) (.openFile (Bytes.ofAscii "/f") (.create .truncate)) =
      some (.ok 5,
        system [] (openFiles.set 5 file) (pair a (process 1 c (ds.set 5 ⟨5, true⟩) false)) 3) := by
    intro a c
    rw [System.answer, hpath]
  have h : Run machine boot _ (system [] (openFiles.set 5 file)
    (pair (process 0 _ ds true) (process 1 _ (ds.set 5 ⟨5, true⟩) false)) 3) :=
    (h.answered (rfl : System.process? _ 2 = some _) rfl (hanswer _ _) :)
  have h : Run machine boot _ (system [] (openFiles.set 5 file)
    (pair (process 0 _ ds true) (process 1 _ ((ds.set 5 ⟨5, true⟩).set 1 ⟨5, false⟩) false)) 3) :=
    (h.answered (rfl : System.process? _ 2 = some _) rfl rfl :)
  have h : Run machine boot _ (system [] (openFiles.set 5 file)
    (pair (process 0 _ ds true)
      (process 1 _ (((ds.set 5 ⟨5, true⟩).set 1 ⟨5, false⟩).erase 5) false)) 3) :=
    (h.answered (rfl : System.process? _ 2 = some _) rfl rfl :)
  let es : List Event := [⟨.openFile (Bytes.ofAscii "/f") (.create .truncate), .ok 5⟩,
    ⟨.dup2 5 1, .ok ()⟩, ⟨.close 5, .ok ()⟩]
  exact ⟨_, _, _, h, rfl, rfl, rfl, [], es, [], rfl, rfl,
    .next rfl (.next rfl (.next rfl (.refl _))), .refl _⟩

end OneStage

open TwoStages

end PipeShell
