import PipeShell.Proofs.Program.Calls

/-! Programs that do the same whatever the replies are. They make calls whose replies they do not
look at, and they say things on standard error, which takes as many writes as the system makes of
it. Main statements: in which ways a text can be written (`returns_writeAll_iff`), and that programs
of this kind can be put one after the other (`Performs.bind`). -/
namespace PipeShell

/-- The ways to write `s`: what has been taken is not written again, an interrupted write is made
once more, and after any other failure there are no more writes. -/
inductive Writes (fd : Fd) : Bytes → List Event → Prop
  | nil : Writes fd [] []
  | piece {s : Bytes} {n : Nat} {es : List Event} (hs : s ≠ [])
      (h : Writes fd (s.drop (n + 1)) es) : Writes fd s (⟨.write fd s, .ok (n + 1)⟩ :: es)
  | interrupted {s : Bytes} {es : List Event} (hs : s ≠ []) (h : Writes fd s es) :
      Writes fd s (⟨.write fd s, .error Errno.interrupted⟩ :: es)
  | stuck {s : Bytes} (hs : s ≠ []) : Writes fd s [⟨.write fd s, .ok 0⟩]
  | failed {s : Bytes} {e : Errno} (hs : s ≠ []) (he : e ≠ Errno.interrupted) :
      Writes fd s [⟨.write fd s, .error e⟩]

theorem Writes.call_of_mem {fd : Fd} {s : Bytes} {es : List Event} (h : Writes fd s es) :
    ∀ e ∈ es, ∃ s', e.call = .write fd s' := by
  induction h with
  | nil => exact nofun
  | piece _ _ ih | interrupted _ _ ih => exact List.forall_mem_cons.2 ⟨⟨_, rfl⟩, ih⟩
  | stuck | failed => exact List.forall_mem_singleton.2 ⟨_, rfl⟩

theorem Writes.own {fd : Fd} {s : Bytes} {es : List Event} (h : Writes fd s es) : Own es :=
  own_of_not_fork fun e he hf => by
    obtain ⟨s', hs⟩ := h.call_of_mem e he
    cases hs.symm.trans hf

/-- One thing that is done without regard to what comes of it. -/
inductive Act
  | call (c : Syscall)
  /-- says something on standard error -/
  | say (s : Bytes)

inductive Enacts : List Act → List Event → Prop
  | nil : Enacts [] []
  | call {c : Syscall} {r : c.Reply} {as : List Act} {es : List Event} (h : Enacts as es) :
      Enacts (.call c :: as) (⟨c, r⟩ :: es)
  | say {s : Bytes} {as : List Act} {es fs : List Event} (hw : Writes Fd.stderr s es)
      (h : Enacts as fs) : Enacts (.say s :: as) (es ++ fs)

variable {as bs : List Act} {es : List Event}

theorem enacts_append_iff : Enacts (as ++ bs) es ↔
    ∃ es₁ es₂, es = es₁ ++ es₂ ∧ Enacts as es₁ ∧ Enacts bs es₂ := by
  constructor
  · intro h
    induction as generalizing es with
    | nil => exact ⟨[], es, rfl, .nil, h⟩
    | cons a as ih =>
      cases h with
      | call h =>
        obtain ⟨es₁, es₂, rfl, h₁, h₂⟩ := ih h
        exact ⟨_ :: es₁, es₂, rfl, .call h₁, h₂⟩
      | say hw h =>
        obtain ⟨es₁, es₂, rfl, h₁, h₂⟩ := ih h
        exact ⟨_ ++ es₁, es₂, (List.append_assoc ..).symm, .say hw h₁, h₂⟩
  · rintro ⟨es₁, es₂, rfl, h₁, h₂⟩
    induction h₁ with
    | nil => exact h₂
    | call _ ih => exact .call ih
    | say hw _ ih =>
      rw [List.append_assoc]
      exact .say hw ih

theorem enacts_map_call_iff {cs : List Syscall} :
    Enacts (cs.map .call) es ↔ es.map Event.call = cs := by
  induction cs generalizing es with
  | nil =>
    constructor
    · intro h
      cases h
      rfl
    · intro h
      rw [List.map_eq_nil_iff.1 h]
      exact .nil
  | cons c cs ih =>
    constructor
    · intro h
      cases h with
      | call h => exact congrArg _ (ih.1 h)
    · intro h
      obtain ⟨⟨c, r⟩, es, rfl, rfl, hes⟩ := List.map_eq_cons_iff.1 h
      exact .call (ih.2 hes)

theorem enacts_say_iff {s : Bytes} : Enacts [.say s] es ↔ Writes Fd.stderr s es := by
  constructor
  · intro h
    cases h with
    | say hw h =>
      cases h
      rwa [List.append_nil]
  · intro h
    rw [← List.append_nil es]
    exact .say h .nil

namespace Program

variable {α β : Type} {p : Program α} {f : α → Program β} {a : α} {b : β} {fd : Fd} {s : Bytes}

theorem writeAll_nil : writeAll fd [] = done (.ok ()) := by
  rw [writeAll, if_pos rfl]
  rfl

theorem writeAll_of_ne_nil (hs : s ≠ []) : writeAll fd s =
    call (.write fd s) interrupted fun r : Except Errno Nat => match r with
      | .error e => done (.error e)
      | .ok 0 => done (.error Errno.noSpace)
      | .ok (k + 1) => writeAll fd (s.drop (k + 1)) := by
  rw [writeAll, if_neg hs]
  rfl

theorem exists_writes_of_reaches {q : Program (Except Errno Unit)}
    (h : (writeAll fd s).Reaches es q) :
    ∃ fs, Writes fd s (es ++ fs) ∧ ∀ r, q = done r → fs = [] := by
  induction es generalizing s with
  | nil =>
    obtain rfl := reaches_nil_iff.1 h
    by_cases hs : s = []
    · exact ⟨[], hs ▸ .nil, fun _ _ => rfl⟩
    · rw [writeAll_of_ne_nil hs]
      exact ⟨_, .stuck hs, fun _ hr => by cases hr⟩
  | cons e es ih =>
    by_cases hs : s = []
    · rw [hs, writeAll_nil] at h
      cases h
    · have hw : writeAll fd s = _ := writeAll_of_ne_nil hs
      rw [hw] at h
      cases h with
      | @next _ _ _ r _ _ hr h =>
        obtain e | _ | k := (r : Except Errno Nat)
        · obtain ⟨rfl, -⟩ := reaches_done_iff.1 h
          refine ⟨[], .failed hs ?_, fun _ _ => rfl⟩
          rintro rfl
          cases hr
        · obtain ⟨rfl, -⟩ := reaches_done_iff.1 h
          exact ⟨[], .stuck hs, fun _ _ => rfl⟩
        · obtain ⟨fs, hf, hend⟩ := ih h
          exact ⟨fs, .piece hs hf, hend⟩
      | again hr h =>
        obtain rfl := interrupted_eq_true_iff.1 hr
        obtain ⟨fs, hf, hend⟩ := ih (hw ▸ h)
        exact ⟨fs, .interrupted hs hf, hend⟩

theorem returns_writeAll_iff : (∃ r, (writeAll fd s).Returns es r) ↔ Writes fd s es := by
  constructor
  · rintro ⟨r, h⟩
    obtain ⟨fs, hw, hend⟩ := exists_writes_of_reaches h
    rwa [hend r rfl, List.append_nil] at hw
  · intro h
    induction h with
    | nil =>
      rw [writeAll_nil]
      exact ⟨_, .refl _⟩
    | piece hs _ ih =>
      rw [writeAll_of_ne_nil hs]
      obtain ⟨x, hx⟩ := ih
      exact ⟨x, .next rfl hx⟩
    | interrupted hs _ ih =>
      rw [writeAll_of_ne_nil hs] at ih ⊢
      obtain ⟨x, hx⟩ := ih
      exact ⟨x, .again rfl hx⟩
    | stuck hs =>
      rw [writeAll_of_ne_nil hs]
      exact ⟨_, .next rfl (.refl _)⟩
    | @failed s e hs he =>
      have hr : interrupted (.error e : Except Errno Nat) = false := decide_eq_false he
      rw [writeAll_of_ne_nil hs]
      exact ⟨_, .next hr (.refl _)⟩

/-- What `p` does are the acts `as`, and it returns `a`, whatever the replies are. -/
def Performs (p : Program α) (as : List Act) (a : α) : Prop :=
  (∀ es b, p.Returns es b ↔ Enacts as es ∧ b = a) ∧
    ∀ es q, p.Reaches es q → ∃ fs, Enacts as (es ++ fs)

theorem performs_done (a : α) : (done a).Performs [] a := by
  refine ⟨fun es b => ?_, fun es q h => ?_⟩
  · rw [returns_done_iff]
    refine and_congr_left fun _ => ⟨?_, fun h => by cases h; rfl⟩
    rintro rfl
    exact .nil
  · obtain ⟨rfl, -⟩ := reaches_done_iff.1 h
    exact ⟨[], .nil⟩

theorem Performs.bind (hp : p.Performs as a) (hf : (f a).Performs bs b) :
    (p >>= f).Performs (as ++ bs) b := by
  refine ⟨fun es b' => ?_, fun es q h => ?_⟩
  · rw [returns_bind_iff, enacts_append_iff]
    constructor
    · rintro ⟨a', es₁, es₂, rfl, h₁, h₂⟩
      obtain ⟨h₁, rfl⟩ := (hp.1 _ _).1 h₁
      obtain ⟨h₂, rfl⟩ := (hf.1 _ _).1 h₂
      exact ⟨⟨es₁, es₂, rfl, h₁, h₂⟩, rfl⟩
    · rintro ⟨⟨es₁, es₂, rfl, h₁, h₂⟩, rfl⟩
      exact ⟨a, es₁, es₂, rfl, (hp.1 _ _).2 ⟨h₁, rfl⟩, (hf.1 _ _).2 ⟨h₂, rfl⟩⟩
  · obtain ⟨q', hq, rfl⟩ | ⟨a', es₁, es₂, rfl, h₁, h₂⟩ := reaches_bind_iff.1 h
    · obtain ⟨fs, hfs⟩ := hp.2 _ _ hq
      obtain ⟨gs, hgs⟩ := hf.2 [] _ (.refl _)
      exact ⟨fs ++ gs, enacts_append_iff.2 ⟨es ++ fs, gs, by simp, hfs, hgs⟩⟩
    · obtain ⟨h₁, rfl⟩ := (hp.1 _ _).1 h₁
      obtain ⟨fs, hfs⟩ := hf.2 _ _ h₂
      exact ⟨fs, enacts_append_iff.2 ⟨es₁, es₂ ++ fs, by simp, h₁, hfs⟩⟩

theorem Performs.andThen {q : Program β} (hp : p.Performs as a) (hq : q.Performs bs b) :
    (p >>= fun _ => q).Performs (as ++ bs) b := hp.bind hq

theorem Performs.ask {c : Syscall} (hp : p.Performs as a) (r₀ : c.Reply) :
    (Program.ask c >>= fun _ => p).Performs (.call c :: as) a := by
  refine ⟨fun es b => ?_, fun es q h => ?_⟩
  · rw [returns_bind_iff]
    constructor
    · rintro ⟨r, es₁, es₂, rfl, h₁, h₂⟩
      obtain rfl := returns_ask_iff.1 h₁
      obtain ⟨h₂, rfl⟩ := (hp.1 _ _).1 h₂
      exact ⟨.call h₂, rfl⟩
    · rintro ⟨h, rfl⟩
      cases h with
      | @call _ r _ es h =>
        exact ⟨r, [⟨c, r⟩], es, rfl, returns_ask_iff.2 rfl, (hp.1 _ _).2 ⟨h, rfl⟩⟩
  · obtain ⟨q', hq, rfl⟩ | ⟨r, es₁, es₂, rfl, h₁, h₂⟩ := reaches_bind_iff.1 h
    · obtain ⟨fs, hfs⟩ := hp.2 [] _ (.refl _)
      obtain ⟨rfl, -⟩ | ⟨r, rfl, -⟩ := reaches_ask_iff.1 hq
      · exact ⟨⟨c, r₀⟩ :: fs, .call hfs⟩
      · exact ⟨fs, .call hfs⟩
    · obtain rfl := returns_ask_iff.1 h₁
      obtain ⟨fs, hfs⟩ := hp.2 _ _ h₂
      exact ⟨fs, .call hfs⟩

theorem performs_say (s : Bytes) :
    (writeAll Fd.stderr s >>= fun _ => done ()).Performs [.say s] () := by
  refine ⟨fun es b => ?_, fun es q h => ?_⟩
  · rw [returns_bind_iff, enacts_say_iff, ← returns_writeAll_iff]
    constructor
    · rintro ⟨r, es₁, es₂, rfl, h₁, h₂⟩
      obtain ⟨rfl, rfl⟩ := returns_done_iff.1 h₂
      rw [List.append_nil]
      exact ⟨⟨r, h₁⟩, rfl⟩
    · rintro ⟨⟨r, h⟩, rfl⟩
      exact ⟨r, es, [], (List.append_nil es).symm, h, .refl _⟩
  · simp only [enacts_say_iff]
    obtain ⟨q', hq, rfl⟩ | ⟨r, es₁, es₂, rfl, h₁, h₂⟩ := reaches_bind_iff.1 h
    · obtain ⟨fs, hw, -⟩ := exists_writes_of_reaches hq
      exact ⟨fs, hw⟩
    · obtain ⟨rfl, -⟩ := reaches_done_iff.1 h₂
      refine ⟨[], ?_⟩
      rw [List.append_nil, List.append_nil]
      exact returns_writeAll_iff.1 ⟨r, h₁⟩

end Program

end PipeShell
