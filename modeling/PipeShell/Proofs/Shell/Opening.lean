import PipeShell.Proofs.Kernel.Restart
import PipeShell.Proofs.Kernel.Sound
import PipeShell.Proofs.Shell.Holders

/-! Opening the links of a pipeline. A pipe is new when it is opened, so nobody has an end of it but
the shell, and nobody gets one until the shell forks. Main statement: whatever happens in the system
meanwhile, when the shell has opened the links and is about to fork the stages, it has the links to
itself (`linked_of_openings`). -/
namespace PipeShell

open Program

def Link.fresh : Unit → Program (Except Errno Link × Unit) := fun () => do
  return (← Link.create, ())

theorem runPipeline_eq (s : State) (l : CommandLine) :
    runPipeline s l = runPipelineWith Link.fresh () s l := rfl

/-- Links that are opened, as the shell sees them. -/
def openings (ls : List Link) : List Event := ls.map fun k => ⟨.pipe, .ok (k.readEnd, k.writeEnd)⟩

theorem opens_openings (ls : List Link) : Link.Opens Link.fresh () (openings ls) ls () := by
  induction ls with
  | nil => exact .nil ()
  | cons k ls ih => exact .cons (returns_source_iff.2 (.inr ⟨_, _, rfl, rfl⟩)) ih

namespace Layout

variable {L : Layout} {O : Fd → Prop} {es : List Event} {fd g : Fd} {b : Bool}

theorem Free.not_open (h : L.Free O fd) (hL : L fd = some ⟨.inherited g, b⟩) : ¬O g := by
  obtain ⟨g', hg, hclosed⟩ := h _ hL
  obtain rfl : g = g' := by injection hg
  exact hclosed

theorem after_of_pipes (hes : ∀ e ∈ es, e.call = .pipe) (hf : L.Fresh O es) (ho : O fd)
    (hL : L fd = some ⟨.inherited fd, false⟩) : L.after es fd = some ⟨.inherited fd, false⟩ := by
  induction es generalizing L with
  | nil => exact hL
  | cons e es ih =>
    obtain ⟨hfresh, hf⟩ := hf
    refine ih (fun e he => hes e (List.mem_cons_of_mem _ he)) hf ?_
    obtain ⟨c, r⟩ := e
    obtain rfl : c = .pipe := hes _ List.mem_cons_self
    obtain e | ⟨a, b⟩ : Except Errno (Fd × Fd) := r
    · exact hL
    · -- what is new is elsewhere
      have hne : ∀ {k}, L.Free O k → fd ≠ k := by
        rintro k hfree rfl
        exact hfree.not_open hL ho
      obtain ⟨ha, hb, -⟩ := hfresh
      simp only [read, Function.update_of_ne (hne ha), Function.update_of_ne (hne hb), hL]

end Layout

variable {ι ρ : Type} {m : Machine ι} {s s' s₀ t : System ι ρ} {G H : Pid → Past} {sh pid : Pid}
  {p p' p₀ : Process ι ρ} {links : List Link} {q : Nat → Nat} {r w fd : Fd}

/-- The link `k` is the pipe `n`, and process `sh` has it to itself. -/
structure Owned (s : System ι ρ) (sh : Pid) (p : Process ι ρ) (k : Link) (n : Nat) : Prop where
  pipe : n < s.pipes.above
  readEnd : s.Refers p k.readEnd (.readEnd n)
  writeEnd : s.Refers p k.writeEnd (.writeEnd n)
  reader : ∀ pid x fd, s.process? pid = some x → s.Refers x fd (.readEnd n) →
    pid = sh ∧ fd = k.readEnd
  writer : ∀ pid x fd, s.process? pid = some x → s.Refers x fd (.writeEnd n) →
    pid = sh ∧ fd = k.writeEnd

theorem Linked.owned (hl : Linked s sh p links q) {j : Nat} {k : Link}
    (hk : links[j]? = some k) : Owned s sh p k (q j) :=
  ⟨hl.pipes j (List.getElem?_eq_some_iff.1 hk).1, hl.readEnd j k hk, hl.writeEnd j k hk,
    hl.reader j k hk, hl.writer j k hk⟩

theorem linked_of_owned (hp : s.process? sh = some p) (hd : (Link.ends links).Nodup)
    (hopen : ∀ fd ≤ Fd.stderr, p.IsOpen fd) (hb : ∀ fd ∈ Link.ends links, Fd.stderr < fd)
    (h : ∀ j k, links[j]? = some k → Owned s sh p k (q j)) : Linked s sh p links q :=
  ⟨hp, hd, hopen, hb, fun j hj => (h j _ (List.getElem?_eq_getElem hj)).pipe,
    fun j k hk => (h j k hk).readEnd, fun j k hk => (h j k hk).writeEnd,
    fun j k hk => (h j k hk).reader, fun j k hk => (h j k hk).writer⟩

section Steps

variable (hs : s.Numbered) (hm : Move m Past.start s G s') (hp : s.process? sh = some p)
  (hp' : s'.process? sh = some p') (hcode : p'.control.isCode = true)
  (hG : ∀ e ∈ (G sh).code, e.call = .pipe)
include hs hm hp hp' hcode

theorem descends_of_move : (G sh).image = none ∧ Fits s s' p (layout (G sh).code) p' ∧
    Layout.initial.Fresh p.IsOpen (G sh).code := by
  have h : Run m s G s' := Run.start.move hm
  obtain ⟨p₁, h₁, hd⟩ := h.descends hs hp'
  rw [(h.native.2 sh (hs sh p hp)).1, hp] at h₁
  obtain rfl := Option.some.inj h₁
  exact hd.code hcode

include hG

theorem get?_of_isOpen (ho : p.IsOpen fd) :
    p'.descriptors.get? fd = p.descriptors.get? fd := by
  obtain ⟨-, hfits, hfresh⟩ := descends_of_move hs hm hp hp' hcode
  exact hfits.eq_of_intact (.inl (Layout.after_of_pipes hG hfresh ho rfl))

theorem refers_of_move {r : Resource} (hr : s.Refers p fd r) : s'.Refers p' fd r := by
  obtain ⟨d, f, hd, hf, rfl⟩ := System.refers_iff.1 hr
  obtain ⟨position, hf'⟩ := (Run.start.move hm).grown.kept _ f hf
  refine System.refers_iff.2 ⟨d, _, ?_, hf', rfl⟩
  rw [get?_of_isOpen hs hm hp hp' hcode hG (fun hn => by rw [hd] at hn; cases hn)]
  exact hd

theorem eq_of_refers {n : Nat} {r : Resource} {g : Fd} {x : Process ι ρ} (hn : n < s.pipes.above)
    (hr : System.IsEnd r n)
    (hone : ∀ pid p fd, s.process? pid = some p → s.Refers p fd r → pid = sh ∧ fd = g)
    (hx : s'.process? pid = some x) (hf : s'.Refers x fd r) : pid = sh ∧ fd = g := by
  have h : Run m s G s' := Run.start.move hm
  obtain ⟨himage, -, -⟩ := descends_of_move hs hm hp hp' hcode
  have hevents : (G sh).events = (G sh).code := by simp [Past.events, himage]
  obtain ⟨hroot, b, hL⟩ := h.inherited_of_refers hs hn hr hone hx hf
  obtain rfl : pid = sh := by
    by_contra hne
    have hfork := hm.fork_mem hs (q := pid) (by rwa [hroot])
    rw [hroot, hevents] at hfork
    cases hG _ hfork
  rw [hevents] at hL
  have hkeeps : Layout.initial.Keeps (layout (G pid).code) :=
    Layout.keeps_after fun a b hd => by cases hG _ hd
  exact ⟨rfl, (Layout.eq_of_initial (hkeeps _ _ _ hL)).symm⟩

theorem Owned.move {k : Link} {n : Nat} (h : Owned s sh p k n) : Owned s' sh p' k n where
  pipe := Nat.lt_of_lt_of_le h.pipe (Run.start.move hm).grown.pipes
  readEnd := refers_of_move hs hm hp hp' hcode hG h.readEnd
  writeEnd := refers_of_move hs hm hp hp' hcode hG h.writeEnd
  reader _ _ _ := eq_of_refers hs hm hp hp' hcode hG h.pipe (.inl rfl) h.reader
  writer _ _ _ := eq_of_refers hs hm hp hp' hcode hG h.pipe (.inr rfl) h.writer

theorem Linked.move (hl : Linked s sh p links q) : Linked s' sh p' links q := by
  refine linked_of_owned hp' hl.nodup (fun fd hfd => ?_) hl.beside fun j k hk =>
    (hl.owned hk).move hs hm hp hp' hcode hG
  rw [Process.IsOpen, get?_of_isOpen hs hm hp hp' hcode hG (hl.streams fd hfd)]
  exact hl.streams fd hfd

end Steps

namespace System

theorem Sound.not_isEnd (hsound : s.Sound) (hg : Grown s s') {i n : Nat} {f : OpenFile}
    (h : ∃ f₀, s.openFiles.get? i = some f₀) (hf : s'.openFiles.get? i = some f)
    (hn : s.pipes.above ≤ n) : ¬IsEnd f.resource n := by
  intro hr
  obtain ⟨f₀, hf₀⟩ := h
  obtain ⟨position, hkept⟩ := hg.kept i f₀ hf₀
  obtain rfl := Option.some.inj (hkept.symm.trans hf)
  exact absurd (hsound.ends i f₀ n hf₀ hr) (Nat.not_lt_of_le hn)

theorem Sound.opened (hsound : s.Sound) (hp : s.process? sh = some p)
    (ha : s.answer sh p .pipe = some (.ok (r, w), s')) (c : Control ι ρ) :
    ∃ (n i j : Nat) (f g : OpenFile), s.pipes.above ≤ n ∧ n < s'.pipes.above ∧
      s'.openFiles.get? i = some f ∧ f.resource = .readEnd n ∧
      s'.openFiles.get? j = some g ∧ g.resource = .writeEnd n ∧
      ∀ pid x fd d, (s'.resume sh c).process? pid = some x → x.descriptors.get? fd = some d →
        pid = sh ∧ (fd = r ∧ d.openFile = i ∨ fd = w ∧ d.openFile = j) ∨
          ∃ f₀, s.openFiles.get? d.openFile = some f₀ := by
  obtain ⟨hg, -, p', he, hf⟩ := answer_effect ha hp
  cases he with
  | neutral hn => cases hn
  | @pipe _ _ i j n f g hr hw hne hi hj hfi hgj hfr hgw =>
    obtain ⟨-, hnew⟩ := hg.added i f hfi (Table.get?_eq_none_of_above_le hi)
    obtain ⟨hn, hlt⟩ := hnew n (.inl hfr)
    refine ⟨n, i, j, f, g, hn, hlt, hfi, hfr, hgj, hgw, fun pid x fd d hx hd => ?_⟩
    obtain ⟨z, hz, hzd⟩ := hf.descriptor hx hd
    split at hz
    · subst hz
      rw [Table.get?_set, Table.get?_set] at hzd
      split at hzd
      · obtain rfl := Option.some.inj hzd
        exact .inl ⟨‹_›, .inr ⟨‹_›, rfl⟩⟩
      · split at hzd
        · obtain rfl := Option.some.inj hzd
          exact .inl ⟨‹_›, .inl ⟨‹_›, rfl⟩⟩
        · exact .inr (hsound.covers sh p hp fd d hzd)
    · exact .inr (hsound.covers pid z hz fd d hzd)

end System

theorem Fits.exists_new (h : Fits s s' p (layout [⟨.pipe, .ok (r, w)⟩]) p')
    (hfd : fd = r ∨ fd = w) :
    ∃ d, p'.descriptors.get? fd = some d ∧ s.openFiles.get? d.openFile = none := by
  have hL : layout [⟨.pipe, .ok (r, w)⟩] fd = some ⟨.piped, false⟩ := by
    obtain rfl | rfl := hfd <;> simp [layout, Layout.read, Function.update_apply]
  have hd := h fd
  rw [hL] at hd
  obtain ⟨n, hn, hd⟩ := hd
  exact ⟨_, hd, Table.get?_eq_none_of_above_le hn⟩

theorem exists_opened (hs : s.Numbered) (hsound : s.Sound) (hm : Move m Past.start s G s')
    (hp : s.process? sh = some p) (hp' : s'.process? sh = some p')
    (hcode : p'.control.isCode = true) (hG : (G sh).code = [⟨.pipe, .ok (r, w)⟩]) :
    ∃ n, Owned s' sh p' ⟨r, w⟩ n := by
  obtain ⟨-, hfits, hfresh⟩ := descends_of_move hs hm hp hp' hcode
  have hgrown := (Run.start.move hm).grown
  rw [hG] at hfits hfresh
  obtain ⟨⟨-, -, hne⟩, -⟩ := hfresh
  obtain ⟨p₁, k, h₁, -, ⟨s₁, ha, rfl⟩ | hr | hc⟩ :=
    hm.reply_of_code (Nat.ne_of_lt (hs sh p hp)) (hG ▸ List.mem_singleton_self _)
  · obtain rfl := Option.some.inj (hp.symm.trans h₁)
    obtain ⟨n, i, j, f, g, hn, hlt, hfi, hfr, hgj, hgw, hall⟩ :=
      hsound.opened hp ha (k (.ok (r, w)))
    have hfiles : (s₁.resume sh (k (.ok (r, w)))).openFiles = s₁.openFiles := by
      unfold System.resume System.modifyProcess
      split <;> rfl
    rw [← hfiles] at hfi hgj
    -- the shell has the two descriptors
    have hpiped : ∀ fd, fd = r ∨ fd = w → ∃ d, p'.descriptors.get? fd = some d ∧
        (fd = r ∧ d.openFile = i ∨ fd = w ∧ d.openFile = j) := by
      intro fd hfd
      obtain ⟨d, hd, hnone⟩ := hfits.exists_new hfd
      obtain ⟨-, hnew⟩ | ⟨f₀, hf₀⟩ := hall sh p' fd d hp' hd
      · exact ⟨d, hd, hnew⟩
      · rw [hnone] at hf₀
        cases hf₀
    refine ⟨n, Nat.lt_of_lt_of_le hlt (System.grown_modifyProcess s₁ sh _).pipes, ?_, ?_,
      fun pid x fd hx he => ?_, fun pid x fd hx he => ?_⟩
    · obtain ⟨d, hd, ⟨-, rfl⟩ | ⟨he, -⟩⟩ := hpiped r (.inl rfl)
      · exact System.refers_iff.2 ⟨d, f, hd, hfi, hfr⟩
      · exact absurd he hne
    · obtain ⟨d, hd, ⟨he, -⟩ | ⟨-, rfl⟩⟩ := hpiped w (.inr rfl)
      · exact absurd he.symm hne
      · exact System.refers_iff.2 ⟨d, g, hd, hgj, hgw⟩
    all_goals
      obtain ⟨d, f', hd, hf', hres⟩ := System.refers_iff.1 he
      obtain ⟨hpid, ⟨rfl, rfl⟩ | ⟨rfl, rfl⟩⟩ | hold := hall pid x fd d hx hd
    · exact ⟨hpid, rfl⟩
    · rw [Option.some.inj (hf'.symm.trans hgj), hgw] at hres
      cases hres
    · exact absurd (.inl hres) (hsound.not_isEnd hgrown hold hf' hn)
    · rw [Option.some.inj (hf'.symm.trans hfi), hfr] at hres
      cases hres
    · exact ⟨hpid, rfl⟩
    · exact absurd (.inr hres) (hsound.not_isEnd hgrown hold hf' hn)
  · cases hr
  · cases hc

theorem Linked.concat (hl : Linked s sh p links q) (hs : s.Numbered) (hsound : s.Sound)
    (hm : Move m Past.start s G s') (hp' : s'.process? sh = some p')
    (hcode : p'.control.isCode = true) (hG : (G sh).code = [⟨.pipe, .ok (r, w)⟩]) :
    ∃ q', Linked s' sh p' (links ++ [⟨r, w⟩]) q' := by
  have hpipes : ∀ e ∈ (G sh).code, e.call = .pipe := by
    rw [hG]
    rintro e he
    rw [List.mem_singleton.1 he]
  have hl' : Linked s' sh p' links q := hl.move hs hm hl.process hp' hcode hpipes
  obtain ⟨n, hnew⟩ := exists_opened hs hsound hm hl.process hp' hcode hG
  -- the new descriptors were free
  obtain ⟨-, -, hfresh⟩ := descends_of_move hs hm hl.process hp' hcode
  rw [hG] at hfresh
  obtain ⟨⟨hr, hw, hne⟩, -⟩ := hfresh
  have hfree : ∀ fd ∈ [r, w], Fd.stderr < fd ∧ fd ∉ Link.ends links := by
    intro fd hfd
    have hclosed : ¬p.IsOpen fd := by
      obtain rfl | rfl : fd = r ∨ fd = w := by simpa using hfd
      · exact hr.not_open rfl
      · exact hw.not_open rfl
    exact ⟨Nat.lt_of_not_le fun hle => hclosed (hl.streams fd hle),
      fun hm => hclosed (hl.isOpen fd hm)⟩
  have hends : Link.ends (links ++ [⟨r, w⟩]) = Link.ends links ++ [r, w] := by simp [Link.ends]
  refine ⟨Function.update q links.length n, linked_of_owned hp' ?_ hl'.streams ?_ ?_⟩
  · rw [hends]
    refine List.nodup_append.2 ⟨hl.nodup, by simp [hne], fun a ha b hb he => ?_⟩
    exact (hfree b hb).2 (he ▸ ha)
  · rw [hends]
    intro fd hfd
    obtain hfd | hfd := List.mem_append.1 hfd
    · exact hl.beside fd hfd
    · exact (hfree fd hfd).1
  · intro j k hk
    by_cases hj : j < links.length
    · rw [List.getElem?_append_left hj] at hk
      rw [Function.update_of_ne (Nat.ne_of_lt hj)]
      exact hl'.owned hk
    · rw [List.getElem?_append_right (Nat.le_of_not_lt hj)] at hk
      obtain rfl : k = ⟨r, w⟩ := List.mem_singleton.1 (List.mem_of_getElem? hk)
      obtain rfl : j = links.length := by
        have hlt := (List.getElem?_eq_some_iff.1 hk).1
        rw [List.length_singleton] at hlt
        omega
      rw [Function.update_self]
      exact hnew

section Runs

theorem linked_nil (hp : s.process? sh = some p) (hopen : ∀ fd ≤ Fd.stderr, p.IsOpen fd)
    (q : Nat → Nat) : Linked s sh p [] q :=
  ⟨hp, List.nodup_nil, hopen, nofun, nofun, nofun, nofun, nofun, nofun⟩

variable (hs : s₀.Numbered) (hsound : s₀.Sound) (hp₀ : s₀.process? sh = some p₀)
  (hopen : ∀ fd ≤ Fd.stderr, p₀.IsOpen fd) {prog : Program ρ} (hc : p₀.control = .code prog)
include hs hsound hp₀ hopen hc

/-- In a run in which the shell does nothing but open links, it has these to itself. -/
theorem Run.linked (h : Run m s₀ H t) (hp : t.process? sh = some p)
    (hcode : p.control.isCode = true) (hes : (H sh).code = openings links) :
    ∃ q, Linked t sh p links q := by
  obtain ⟨ss, hist⟩ := h.exists_history
  induction hist generalizing p links with
  | start =>
    obtain rfl := Option.some.inj (hp₀.symm.trans hp)
    obtain rfl : links = [] := List.map_eq_nil_iff.1 hes.symm
    exact ⟨id, linked_nil hp hopen id⟩
  | @move ss H H' s s' hist hm ih =>
    have h : Run m s₀ H s := hist.run
    have h' : Run m s₀ H' s' := h.move hm
    obtain ⟨hlt, hnative⟩ := h.native
    have hsh : sh < s₀.nextPid := hs sh p₀ hp₀
    have hnext : sh ≠ s.nextPid := Nat.ne_of_lt (Nat.lt_of_lt_of_le hsh hlt)
    obtain ⟨G, hG, hbetween⟩ := hm.restart
    obtain ⟨hcodeG, himage⟩ := hbetween sh hnext
    obtain ⟨x, hx, hends⟩ := (hm.exists_before hp).resolve_left hnext
    -- it was code before, too
    have hxcode : x.control.isCode = true := by
      cases hy : x.control with
      | code y => rfl
      | ended e =>
        rw [hends e hy] at hcode
        cases hcode
      | image i =>
        have hexec := h.executes hs hx ((hnative sh hsh).1.symm ▸ hp₀) hc
        obtain ⟨p₁, -, hd⟩ := h'.descends hs hp
        exact absurd (himage (hd.code hcode).1) (hexec.image (by rw [hy]; rfl))
    have hnum : s.Numbered := h.numbered hs
    obtain ⟨-, hnone | ⟨ev, hev, -⟩⟩ := hG.code_cases hnext
    · have hnone : (G sh).code = [] := hnone
      rw [hnone, List.append_nil] at hcodeG
      obtain ⟨q, hl⟩ := ih h hx hxcode (hcodeG ▸ hes)
      exact ⟨q, hl.move hnum hG hx hp hcode fun e he => by rw [hnone] at he; cases he⟩
    · -- it has opened the last one
      have hev : (G sh).code = [ev] := hev
      rw [hcodeG, hev] at hes
      obtain rfl | ⟨ls, k, rfl⟩ := links.eq_nil_or_concat
      · cases List.append_ne_nil_of_right_ne_nil _ (List.cons_ne_nil ev []) hes
      · rw [List.concat_eq_append, openings, List.map_append] at hes
        obtain ⟨hes, he⟩ := List.append_inj' hes rfl
        obtain ⟨q, hl⟩ := ih h hx hxcode hes
        rw [(List.cons.inj he).1] at hev
        rw [List.concat_eq_append]
        exact hl.concat hnum (h.sound hs hsound) hG hp hcode hev

/-- Whatever happens meanwhile, when the shell has opened the links of a pipeline it goes on to fork
the stages, and it has the links to itself. -/
theorem linked_of_openings {rest : UInt8 → Program ρ} {st : State} {l : CommandLine}
    (hprog : prog = runPipeline st l >>= rest) (hn : links.length + 1 = l.commands.length)
    (h : Run m s₀ H t) (hp : t.process? sh = some p) (hcode : p.control.isCode = true)
    (hes : (H sh).code = openings links) :
    p.control = .code (runStages st l links >>= rest) ∧ ∃ q, Linked t sh p links q := by
  refine ⟨?_, h.linked hs hsound hp₀ hopen hc hp hcode hes⟩
  have hroot : (H sh).root = sh := (h.native.2 sh (hs sh p₀ hp₀)).1
  have hexec := h.executes hs hp (hroot.symm ▸ hp₀) hc
  cases hy : p.control with
  | code y =>
    obtain ⟨hr, -⟩ := hexec.code y hy
    subst hprog
    have hreach := reaches_runStages (s := st) (opens_openings links) hn
    rw [hes] at hr
    rw [hr.unique (hreach.bind rest)]
  | _ => rw [hy] at hcode; cases hcode

end Runs

end PipeShell
