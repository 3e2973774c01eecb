import Mathlib.Data.Set.Insert
import Mathlib.Logic.Basic
import PipeShell.Proofs.Program.Trace
import PipeShell.Shell.Search

/-! Which names can be launched. What the search asks about a name is answered by the set of the
files that can be executed, and of the search path nothing counts but which directories are in it.
Main statement: the search has one answer, which is that a name with a slash can be executed itself,
or that one without is found in a non-empty component of the path; so paths joined find what either
finds, and neither order nor repetition nor empty components make a difference
(`resolvable_by_directories`). -/
namespace PipeShell

/-- Whether an event asks if a file can be executed, and has the reply of a file system in which the
files of `A` can and no others. -/
def Event.TellsOf (A : Set Bytes) : Event → Prop
  | ⟨.access path, r⟩ => (r : Except Errno Unit) = .ok () ↔ path ∈ A
  | _ => False

namespace Program

variable {α β : Type} {T : Event → Prop}

/-- Whether `p` can return `a` when all events on the way are as `T` says. -/
def Answers (p : Program α) (T : Event → Prop) (a : α) : Prop :=
  ∃ es, (∀ e ∈ es, T e) ∧ p.Returns es a

theorem answers_done_iff {a b : α} : (done a).Answers T b ↔ b = a := by
  constructor
  · rintro ⟨es, -, h⟩
    exact (returns_done_iff.1 h).2
  · rintro rfl
    exact ⟨[], by simp, returns_done_iff.2 ⟨rfl, rfl⟩⟩

theorem answers_ask_iff {c : Syscall} {r : c.Reply} : (ask c).Answers T r ↔ T ⟨c, r⟩ := by
  simp [Answers]

theorem answers_bind_iff {p : Program α} {f : α → Program β} {b : β} :
    (p >>= f).Answers T b ↔ ∃ a, p.Answers T a ∧ (f a).Answers T b := by
  constructor
  · rintro ⟨es, hes, h⟩
    obtain ⟨a, es₁, es₂, rfl, h₁, h₂⟩ := returns_bind_iff.1 h
    simp only [List.mem_append, or_imp, forall_and] at hes
    exact ⟨a, ⟨es₁, hes.1, h₁⟩, es₂, hes.2, h₂⟩
  · rintro ⟨a, ⟨es₁, hes₁, h₁⟩, es₂, hes₂, h₂⟩
    refine ⟨es₁ ++ es₂, ?_, returns_bind_iff.2 ⟨a, es₁, es₂, rfl, h₁, h₂⟩⟩
    simp only [List.mem_append, or_imp, forall_and]
    exact ⟨hes₁, hes₂⟩

end Program

namespace Bytes

theorem splitOn_eq_list (sep : UInt8) (s : Bytes) : s.splitOn sep = List.splitOn sep s := by
  induction s with
  | nil => rfl
  | cons c s ih =>
    have hcons : List.splitOn sep (c :: s) =
        if c = sep then [] :: List.splitOn sep s
        else (List.splitOn sep s).modifyHead (c :: ·) := by
      simp [List.splitOn, List.splitOnP_cons_eq_if_modifyHead]
    rw [hcons, splitOn, ← ih]
    split
    · rfl
    · split
      next hs => exact absurd hs (splitOn_ne_nil sep s)
      next p ps hs => rw [hs]; rfl

end Bytes

namespace Search

open Program

variable {A : Set Bytes} {T : Event → Prop} {path name : Bytes} {b : Bool}

def Usable (A : Set Bytes) (path : Bytes) : Prop := Byte.nul ∉ path ∧ path ∈ A

/-- The components of a search path, empty ones included. Without a path there are none. -/
def components (path : Option Bytes) : List Bytes := path.elim [] (List.splitOn Byte.colon)

/-- Whether `name` is the path of a file that can be executed or, without a slash, the name of one
in a directory of the search path. -/
def Launchable (A : Set Bytes) (path : Option Bytes) (name : Bytes) : Prop :=
  name ≠ [] ∧ (Byte.slash ∈ name ∧ Usable A name ∨
    Byte.slash ∉ name ∧ ∃ d ∈ components path, d ≠ [] ∧ Usable A (join d name))

theorem mem_directories_iff {d p : Bytes} :
    d ∈ directories p ↔ d ∈ components (some p) ∧ d ≠ [] := by
  simp [directories, components, Bytes.splitOn_eq_list]

theorem components_append (p q : Bytes) :
    components (some (p ++ Byte.colon :: q)) = components (some p) ++ components (some q) := by
  simp only [components, Option.elim_some, ← Bytes.splitOn_eq_list, Bytes.splitOn_append]

section Asking

variable (hT : ∀ path r, T ⟨.access path, r⟩ ↔ ((r : Except Errno Unit) = .ok () ↔ path ∈ A))
include hT

theorem answers_executable_iff :
    (executable path).Answers T b ↔ (b = true ↔ Usable A path) := by
  by_cases hnul : Byte.nul ∈ path
  · rw [executable_of_mem hnul, answers_done_iff]
    simp [Usable, hnul]
  · have hask : ∀ r : Except Errno Unit,
        (ask (.access path)).Answers T r ↔ (r = .ok () ↔ path ∈ A) :=
      fun r => answers_ask_iff.trans (hT path r)
    rw [executable_of_notMem hnul, answers_bind_iff]
    constructor
    · rintro ⟨r, hr, hb⟩
      have hr := (hask r).1 hr
      obtain e | ⟨⟨⟩⟩ := r
      · obtain rfl := answers_done_iff.1 hb
        simpa [Usable, hnul] using hr
      · obtain rfl := answers_done_iff.1 hb
        simpa [Usable, hnul] using hr
    · intro hb
      cases b with
      | true =>
        exact ⟨.ok (), (hask _).2 (by simpa [Usable, hnul] using hb), answers_done_iff.2 rfl⟩
      | false =>
        exact ⟨.error Errno.accessDenied, (hask _).2 (by simpa [Usable, hnul] using hb),
          answers_done_iff.2 rfl⟩

theorem answers_anyExecutable_iff (ps : List Bytes) :
    (anyExecutable ps).Answers T b ↔ (b = true ↔ ∃ p ∈ ps, Usable A p) := by
  induction ps with
  | nil => simp [anyExecutable, answers_done_iff]
  | cons p ps ih =>
    rw [anyExecutable, answers_bind_iff]
    by_cases hp : Usable A p
    · have hfound : ∀ x, (executable p).Answers T x ↔ x = true := by
        simp [answers_executable_iff hT, hp]
      simp [hfound, hp, answers_done_iff]
    · have hmissing : ∀ x, (executable p).Answers T x ↔ x = false := by
        simp [answers_executable_iff hT, hp]
      simp [hmissing, hp, ih]

theorem answers_resolvable_iff (path : Option Bytes) :
    (resolvable path name).Answers T b ↔ (b = true ↔ Launchable A path name) := by
  unfold resolvable
  by_cases hname : name = []
  · simp [hname, answers_done_iff, Launchable]
  by_cases hslash : Byte.slash ∈ name
  · simp [hname, hslash, answers_executable_iff hT, Launchable]
  cases path with
  | none => simp [hname, hslash, answers_done_iff, Launchable, components]
  | some p =>
    simp only [hname, hslash, if_false, answers_anyExecutable_iff hT, List.mem_map,
      mem_directories_iff, exists_exists_and_eq_and]
    simp [Launchable, hname, hslash, and_assoc]

end Asking

theorem Launchable.mono {p q : Option Bytes} (h : ∀ d ∈ components p, d ≠ [] → d ∈ components q)
    (hp : Launchable A p name) : Launchable A q name := by
  obtain ⟨hname, hfile | ⟨hslash, d, hd, hne, hfile⟩⟩ := hp
  · exact ⟨hname, .inl hfile⟩
  · exact ⟨hname, .inr ⟨hslash, d, h d hd hne, hne, hfile⟩⟩

theorem launchable_append_iff (p q : Bytes) :
    Launchable A (some (p ++ Byte.colon :: q)) name ↔
      Launchable A (some p) name ∨ Launchable A (some q) name := by
  constructor
  · rintro ⟨hname, hfile | ⟨hslash, d, hd, hne, hfile⟩⟩
    · exact .inl ⟨hname, .inl hfile⟩
    · rw [components_append, List.mem_append] at hd
      exact hd.imp (fun hd => ⟨hname, .inr ⟨hslash, d, hd, hne, hfile⟩⟩)
        fun hd => ⟨hname, .inr ⟨hslash, d, hd, hne, hfile⟩⟩
  · rintro (h | h)
    · exact h.mono fun d hd _ => by simp [components_append, hd]
    · exact h.mono fun d hd _ => by simp [components_append, hd]

/-- Whether the search for `name` along `path` can end in success. -/
def Resolves (A : Set Bytes) (path : Option Bytes) (name : Bytes) : Prop :=
  (resolvable path name).Answers (Event.TellsOf A) true

theorem resolves_iff_launchable {path : Option Bytes} :
    Resolves A path name ↔ Launchable A path name := by
  have h : Resolves A path name ↔ (true = true ↔ Launchable A path name) :=
    answers_resolvable_iff (fun _ _ => Iff.rfl) path
  simpa using h

/-- The search for a name has one answer in each file system, given by the components of the path
that are not empty. So a path made of two finds what either of them finds, paths with the same
components find the same names, and a path with more components finds no fewer. -/
theorem resolvable_by_directories (A : Set Bytes) (name : Bytes) :
    (∀ path b, (resolvable path name).Answers (Event.TellsOf A) b ↔
      (b = true ↔ Launchable A path name)) ∧
    (∀ p q : Bytes, Resolves A (some (p ++ Byte.colon :: q)) name ↔
      Resolves A (some p) name ∨ Resolves A (some q) name) ∧
    (∀ p q : Option Bytes, (∀ d ≠ [], d ∈ components p ↔ d ∈ components q) →
      (Resolves A p name ↔ Resolves A q name)) ∧
    ∀ p q : Option Bytes, (∀ d ≠ [], d ∈ components p → d ∈ components q) →
      Resolves A p name → Resolves A q name := by
  have hmono : ∀ p q : Option Bytes, (∀ d ≠ [], d ∈ components p → d ∈ components q) →
      Resolves A p name → Resolves A q name := by
    intro p q hpq
    simp only [resolves_iff_launchable]
    exact Launchable.mono fun d hd hne => hpq d hne hd
  refine ⟨fun path b => answers_resolvable_iff (fun _ _ => Iff.rfl) path, ?_, ?_, hmono⟩
  · intro p q
    simp only [resolves_iff_launchable]
    exact launchable_append_iff p q
  · intro p q hpq
    exact ⟨hmono p q fun d hne => (hpq d hne).1, hmono q p fun d hne => (hpq d hne).2⟩

/-- In a system with nothing but `ls` in `/bin`, each of two paths that name `/bin` somewhere finds
it, and a path that does not name it finds nothing. -/
theorem resolvable_by_directories_ls :
    let A : Set Bytes := {Bytes.ofAscii "/bin/ls"}
    let p := some (Bytes.ofAscii "/usr/bin:/bin")
    let q := some (Bytes.ofAscii ":/bin:/usr/bin::/bin:")
    let name := Bytes.ofAscii "ls"
    (∀ d ≠ [], d ∈ components p ↔ d ∈ components q) ∧ Resolves A p name ∧ Resolves A q name ∧
      ¬Resolves A (some (Bytes.ofAscii ":/usr/bin:")) name := by
  intro A p q name
  have hp : components p = [Bytes.ofAscii "/usr/bin", Bytes.ofAscii "/bin"] := rfl
  have hq : components q = [[], Bytes.ofAscii "/bin", Bytes.ofAscii "/usr/bin", [],
    Bytes.ofAscii "/bin", []] := rfl
  have hpq : ∀ d ≠ [], d ∈ components p ↔ d ∈ components q := by
    intro d hd
    simp only [hp, hq, List.mem_cons, List.not_mem_nil, hd, or_false, false_or]
    exact ⟨fun h => h.elim (fun h => .inr (.inl h)) .inl,
      fun h => h.elim .inr fun h => h.elim .inl .inr⟩
  have hmissing : ¬Launchable A (some (Bytes.ofAscii ":/usr/bin:")) name := by
    rintro ⟨-, ⟨hslash, -⟩ | ⟨-, d, hd, hne, hfile⟩⟩
    · exact absurd hslash (by decide)
    · have hd : d ∈ [[], Bytes.ofAscii "/usr/bin", []] := hd
      simp only [List.mem_cons, hne, List.not_mem_nil, or_false, false_or] at hd
      obtain rfl := hd
      exact absurd hfile.2 (by decide)
  have hfound : Resolves A p name := by
    rw [resolves_iff_launchable]
    exact ⟨by decide, .inr ⟨by decide, Bytes.ofAscii "/bin", by simp [hp], by decide, by decide, rfl⟩⟩
  have h := resolvable_by_directories A name
  exact ⟨hpq, hfound, (h.2.2.1 p q hpq).1 hfound, fun h => hmissing (resolves_iff_launchable.1 h)⟩

end Search

end PipeShell
