import PipeShell.Proofs.Kernel.Run

/-! Systems without loose ends: each descriptor is for an open file that there is, and each end for
a pipe that there is. Main statement: a run never makes a loose end (`Run.sound`). -/
namespace PipeShell

namespace System

variable {ι ρ : Type} {s s' : System ι ρ} {p p' : Process ι ρ} {ds es : Table Descriptor}
  {e : Event}

def Covers (s : System ι ρ) (ds : Table Descriptor) : Prop :=
  ∀ fd d, ds.get? fd = some d → ∃ f, s.openFiles.get? d.openFile = some f

theorem Covers.grown (h : s.Covers ds) (hg : Grown s s') : s'.Covers ds := by
  intro fd d hd
  obtain ⟨f, hf⟩ := h fd d hd
  obtain ⟨position, hf'⟩ := hg.kept _ f hf
  exact ⟨_, hf'⟩

theorem Covers.mono (h : s.Covers ds) (hd : ∀ fd d, es.get? fd = some d → ds.get? fd = some d) :
    s.Covers es := fun fd d he => h fd d (hd fd d he)

theorem covers_empty : s.Covers Table.empty := fun fd d hd => by cases hd

theorem Covers.set {n : Nat} {f : OpenFile} (h : s.Covers ds) (hf : s.openFiles.get? n = some f)
    (k : Fd) (b : Bool) : s.Covers (ds.set k ⟨n, b⟩) := by
  intro fd d' hd
  rw [Table.get?_set] at hd
  split at hd
  · obtain rfl := Option.some.inj hd
    exact ⟨f, hf⟩
  · exact h fd d' hd

theorem Covers.effect (h : s'.Covers p.descriptors) (he : Effect s s' p e p') :
    s'.Covers p'.descriptors := by
  cases he with
  | neutral | defaultBrokenPipe | chdir => exact h
  | @pipe r w i j q f g hr hw hne hi hj hf hg => exact (h.set hf r true).set hg w true
  | @dup2 a b d ha =>
    obtain ⟨f, hf⟩ := h a d ha
    dsimp only
    split
    · exact h
    · exact h.set hf b false
  | @close fd r t ht =>
    refine h.mono fun k d hd => ?_
    rw [ht] at hd
    split at hd
    · cases hd
    · exact hd
  | @openFile path mode fd n i hfd hn hf => exact h.set hf fd true

/-- A system without loose ends. -/
structure Sound (s : System ι ρ) : Prop where
  covers : ∀ pid p, s.process? pid = some p → s.Covers p.descriptors
  ends : ∀ n f q, s.openFiles.get? n = some f →
    f.resource = .readEnd q ∨ f.resource = .writeEnd q → q < s.pipes.above

end System

variable {ι ρ : Type} {s₀ s : System ι ρ}

theorem preserved_covers (m : Machine ι) (hs : s₀.Sound) :
    Preserved m s₀ fun s _ _ p => s.Covers p.descriptors where
  start hp := hs.covers _ _ hp
  grown hg h := h.grown hg
  event _ h _ he := by
    have h' := h.effect he
    exact h'
  birth _ h _ := h
  become h _ := h.mono fun fd d hd =>
    (Option.filter_eq_some_iff.1 ((Table.get?_filter _ _ _).symm.trans hd)).1
  exited _ _ := System.covers_empty
  signaled _ := System.covers_empty
  stopped h := h

theorem Run.sound {m : Machine ι} {H : Pid → Past} (h : Run m s₀ H s) (hn : s₀.Numbered)
    (hs : s₀.Sound) : s.Sound := by
  refine ⟨h.invariant hn (preserved_covers m hs), fun n f q hf hq => ?_⟩
  cases h₀ : s₀.openFiles.get? n with
  | none => exact ((h.grown.added n f hf h₀).2 q hq).2
  | some f₀ =>
    obtain ⟨position, hkept⟩ := h.grown.kept n f₀ h₀
    obtain rfl := Option.some.inj (hkept.symm.trans hf)
    exact Nat.lt_of_lt_of_le (hs.ends n f₀ q h₀ hq) h.grown.pipes

end PipeShell
