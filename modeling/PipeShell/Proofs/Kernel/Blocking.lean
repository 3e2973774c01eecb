import Mathlib.Logic.Relation
import PipeShell.Proofs.Kernel.Run

/-! When a process cannot make its next step. Most calls never have to wait; a read waits for
somebody who can write to the pipe, and a write for somebody who can read from it. Main statements:
a call that never has to wait is carried out (`System.step_isSome`), and what the state of a pipe is
when a process waits at one of its ends (`System.of_read_eq_none`, `System.of_write_eq_none`). -/
namespace PipeShell

def Syscall.mayWait : Syscall → Bool
  | .wait _ | .pause | .read _ _ | .write _ _ | .sleepUntil _ => true
  | _ => false

variable {ι ρ : Type} {m : Machine ι} {s : System ι ρ} {pid : Pid} {p : Process ι ρ} {fd : Fd}
  {c : Syscall} {k : c.Reply → Control ι ρ}

namespace System

theorem step_eq_perform (hp : s.process? pid = some p) (hn : p.next? m = some ⟨c, k⟩) :
    s.step m pid = s.perform m pid p c k := by
  unfold Process.next? at hn
  simp only [step, hp, Option.bind_eq_bind, Option.bind_some]
  split at hn
  · cases hn
  · split at hn
    · cases hn
      simp [*]
    · cases hn
      simp [*]
    · cases hn

theorem perform_isSome (h : c.mayWait = false) : (s.perform m pid p c k).isSome := by
  unfold perform
  split
  · rfl
  · rename_i ha
    cases c with
    | exit code => rfl
    | fork =>
      simp only [answer] at ha
      split at ha
      · simp [depart, *]
      · cases ha
    | exec path argv =>
      simp only [answer] at ha
      split at ha
      · cases ha
      · simp [depart, *]
    | wait | pause | read | write | sleepUntil => cases h
    | _ => cases ha

theorem step_isSome (hp : s.process? pid = some p) (hn : p.next? m = some ⟨c, k⟩)
    (h : c.mayWait = false) : (s.step m pid).isSome := by
  rw [step_eq_perform hp hn]
  exact perform_isSome h

theorem read_eq_none {count : Nat} {k : (Syscall.read fd count).Reply → Control ι ρ}
    (hp : s.process? pid = some p) (hn : p.next? m = some ⟨.read fd count, k⟩)
    (h : s.step m pid = none) : s.read p fd count = none := by
  rw [step_eq_perform hp hn, perform] at h
  simp only [answer] at h
  split at h
  · cases h
  · assumption

theorem write_eq_none {data : Bytes} {k : (Syscall.write fd data).Reply → Control ι ρ}
    (hp : s.process? pid = some p) (hn : p.next? m = some ⟨.write fd data, k⟩)
    (h : s.step m pid = none) : s.write p fd data = none := by
  rw [step_eq_perform hp hn, perform] at h
  cases hw : s.write p fd data with
  | none => rfl
  | some x =>
    -- the write is answered, or it breaks the pipe
    simp only [answer, depart, hw] at h
    by_cases hb : p.breaks x.1 = true
    · simp [hb, Option.filter] at h
    · simp [hb, Option.filter] at h

theorem of_wait_eq_none {child : Pid} {k : (Syscall.wait child).Reply → Control ι ρ}
    (hp : s.process? pid = some p) (hn : p.next? m = some ⟨.wait child, k⟩)
    (h : s.step m pid = none) :
    ∃ x, s.process? child = some x ∧ ∀ e, x.control ≠ .ended e := by
  rw [step_eq_perform hp hn, perform] at h
  simp only [answer] at h
  cases hw : s.wait pid p child with
  | some x =>
    rw [hw] at h
    cases h
  | none =>
    unfold wait at hw
    split at hw
    · cases hw
    · rename_i x hx
      refine ⟨x, hx, fun e he => ?_⟩
      split at hw
      · cases hw
      · rw [he] at hw
        cases hw

variable {n i : Nat} {f : OpenFile}

theorem of_read_eq_none {count : Nat} (h : s.read p fd count = none)
    (ho : s.openFile? p fd = some (i, f)) (hr : f.resource = .readEnd n) :
    (s.pipes.get? n).getD [] = [] ∧ s.isHeld (.writeEnd n) = true := by
  simp only [read, ho, hr] at h
  split at h
  · cases h
  · split at h
    · rename_i hempty
      split at h
      · exact ⟨hempty, ‹_›⟩
      · cases h
    · cases h

theorem of_write_eq_none {data : Bytes} (h : s.write p fd data = none)
    (ho : s.openFile? p fd = some (i, f)) (hr : f.resource = .writeEnd n) :
    s.capacity ≤ ((s.pipes.get? n).getD []).length ∧ s.isHeld (.readEnd n) = true := by
  simp only [write, ho, hr] at h
  split at h
  · cases h
  · split at h
    · cases h
    · split at h
      · cases h
      · split at h
        · exact ⟨Nat.le_of_sub_eq_zero ‹_›, by simpa using ‹¬(!s.isHeld (.readEnd n)) = true›⟩
        · cases h

end System

end PipeShell
