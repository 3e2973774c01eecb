import PipeShell.Proofs.Program.Calls

/-! Watching a program. A watch keeps something in mind of the events of a program, and what it
permits depends on that. Main statement: a program that heeds a watch, as can be read off the
program, makes no call that is not permitted, whatever the replies are (`Heeds.permits_of_reaches`).
-/
namespace PipeShell

/-- What is kept in mind of events, and the calls that are permitted then. -/
structure Watch (σ : Type) where
  next : σ → Event → σ
  permits : σ → Syscall → Prop

namespace Watch

variable {σ : Type} (w : Watch σ)

def after (x : σ) (es : List Event) : σ := es.foldl w.next x

@[simp] theorem after_nil (x : σ) : w.after x [] = x := rfl

@[simp] theorem after_cons (x : σ) (e : Event) (es : List Event) :
    w.after x (e :: es) = w.after (w.next x e) es := rfl

def Ignores (x : σ) (c : Syscall) : Prop := w.permits x c ∧ ∀ r, w.next x ⟨c, r⟩ = x

end Watch

namespace Program

variable {α β σ : Type} {w : Watch σ} {Q : σ → α → Prop} {x : σ} {p q : Program α}
  {es : List Event} {c : Syscall}

/-- Every call of `p` is permitted when it is made, and what `p` returns satisfies `Q`. -/
def Heeds (w : Watch σ) (Q : σ → α → Prop) : σ → Program α → Prop
  | x, done a => Q x a
  | x, call c again k => w.permits x c ∧ (∀ r, again r = true → w.next x ⟨c, r⟩ = x) ∧
    ∀ r, again r = false → (k r).Heeds w Q (w.next x ⟨c, r⟩)

@[simp] theorem heeds_bind (p : Program α) (f : α → Program β) (Q : σ → β → Prop) :
    (p >>= f).Heeds w Q x ↔ p.Heeds w (fun x a => (f a).Heeds w Q x) x := by
  induction p generalizing x with
  | done a => rfl
  | call c again k ih => simp only [call_bind, Heeds, ih]

theorem heeds_ask {Q : σ → c.Reply → Prop} :
    (ask c).Heeds w Q x ↔ w.permits x c ∧ ∀ r, Q (w.next x ⟨c, r⟩) r := by
  simp [ask, Heeds]

theorem heeds_persistent {again : c.Reply → Bool} {e : c.Reply} (he : ∀ r, again r = true ↔ r = e)
    {Q : σ → c.Reply → Prop} : (call c again done).Heeds w Q x ↔
      w.permits x c ∧ w.next x ⟨c, e⟩ = x ∧ ∀ r, r ≠ e → Q (w.next x ⟨c, r⟩) r := by
  have hagain : ∀ r, again r = false ↔ r ≠ e := fun r => by
    rw [← Bool.not_eq_true, he]
  simp [Heeds, he, hagain]

theorem heeds_openFile {path : Bytes} {mode : OpenMode} {Q : σ → Except Errno Fd → Prop} :
    (openFile path mode).Heeds w Q x ↔ w.permits x (.openFile path mode) ∧
      w.next x ⟨.openFile path mode, .error Errno.interrupted⟩ = x ∧
        ∀ r, r ≠ .error Errno.interrupted → Q (w.next x ⟨.openFile path mode, r⟩) r :=
  heeds_persistent (c := .openFile path mode) fun _ => interrupted_eq_true_iff

theorem Heeds.mono {R : σ → α → Prop} (h : p.Heeds w Q x) (hQ : ∀ x a, Q x a → R x a) :
    p.Heeds w R x := by
  induction p generalizing x with
  | done a => exact hQ x a h
  | call c again k ih => exact ⟨h.1, h.2.1, fun r hr => ih r (h.2.2 r hr)⟩

@[simp] theorem heeds_never {p : Program Empty} :
    (never p : Program α).Heeds w Q x ↔ p.Heeds w (fun _ _ => True) x := by
  rw [never, heeds_bind]
  exact ⟨fun h => h.mono fun _ _ _ => trivial, fun h => h.mono fun _ a => a.elim⟩

theorem heeds_of_calls {P : Bool → Syscall → Prop} {R : Bool → α → Prop} {b : Bool}
    (h : p.Calls P R b) (hP : ∀ b c, P b c → w.Ignores x c) (hQ : ∀ b a, R b a → Q x a) :
    p.Heeds w Q x := by
  induction p generalizing b with
  | done a => exact hQ b a h
  | call c again k ih =>
    obtain ⟨hpermits, hnext⟩ := hP b c h.1
    refine ⟨hpermits, fun r _ => hnext r, fun r hr => ?_⟩
    rw [hnext r]
    exact ih r (h.2.2 r hr)

theorem Heeds.of_reaches (h : p.Heeds w Q x) (hr : p.Reaches es q) :
    q.Heeds w Q (w.after x es) := by
  induction hr generalizing x with
  | refl => exact h
  | next hr _ ih => exact ih (h.2.2 _ hr)
  | again hr _ ih =>
    rw [Watch.after_cons, h.2.1 _ hr]
    exact ih h

theorem Heeds.permits_of_reaches {again : c.Reply → Bool} {k : c.Reply → Program α}
    (h : p.Heeds w Q x) (hr : p.Reaches es (call c again k)) : w.permits (w.after x es) c :=
  (h.of_reaches hr).1

theorem Heeds.permits_of_append {e : Event} {fs : List Event} (h : p.Heeds w Q x)
    (hr : p.Reaches (es ++ e :: fs) q) : w.permits (w.after x es) e.call := by
  obtain ⟨q', h₁, h₂⟩ := hr.of_append
  cases h₂ with
  | next => exact h.permits_of_reaches h₁
  | again => exact h.permits_of_reaches h₁

end Program

end PipeShell
