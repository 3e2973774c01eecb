import PipeShell.Proofs.Kernel.Names

/-! Files that can be executed. A path can be executed if it leads to a file that the permissions
let the process execute, and nothing else about the file is asked before it is looked into. Main
statements: a file that is executed, or found to be no program, can be executed
(`executable_of_program`), and a slash too many makes no difference to that
(`executable_of_double_slash`). -/
namespace PipeShell

namespace FileTree

variable {t : FileTree} {c : Credentials} {cwd : Nat} {path name d : Bytes} {argv : List Bytes}

/-- Whether a path leads to a file that may be executed, or to a directory that may be searched. -/
def Executable (t : FileTree) (c : Credentials) (cwd : Nat) (path : Bytes) : Prop :=
  ∃ i inode, t.find c cwd path = .ok (i, inode) ∧ inode.grants c .execute = true

theorem follow_ne_notExecutable {links dir : Nat} {names : List Bytes} {slash : Bool} :
    t.follow c links dir names slash ≠ .error Errno.notExecutable := by
  fun_induction follow t c links dir names slash <;> simp_all

theorem place_ne_notExecutable : t.place c cwd path ≠ .error Errno.notExecutable := by
  unfold place pathError?
  split
  next e he => split at he <;> grind
  · exact follow_ne_notExecutable

theorem get?_ne_notExecutable {i : Nat} {slash : Bool} : (match t.inodes.get? i with
      | none => throw Errno.noEntry
      | some inode => if slash && !inode.isDirectory then throw Errno.notDirectory
        else return (i, inode) : Except Errno (Nat × Inode)) ≠ .error Errno.notExecutable := by
  intro h
  split at h
  · cases h
  · split at h <;> cases h

theorem find_ne_notExecutable : t.find c cwd path ≠ .error Errno.notExecutable := by
  intro h
  unfold find at h
  cases hp : t.place c cwd path with
  | error e =>
    rw [hp] at h
    obtain rfl : e = Errno.notExecutable := Except.error.inj h
    exact place_ne_notExecutable hp
  | ok p =>
    rw [hp] at h
    obtain i | ⟨_, _, _ | i, slash⟩ := p
    · exact get?_ne_notExecutable h
    · cases h
    · exact get?_ne_notExecutable h

theorem program_eq (t : FileTree) (c : Credentials) (cwd depth : Nat) (path : Bytes)
    (argv : List Bytes) : ∃ f, t.program c cwd depth path argv = t.find c cwd path >>= f ∧
      (∀ x : Nat × Inode, x.2.grants c .execute = false → f x = .error Errno.accessDenied) ∧
      ∀ (x : Nat × Inode) name, x.2.grants c .execute = true → x.2.content = .image name →
        (¬∃ a ∈ argv, argumentLimit < a.length) → f x = .ok (name, argv) := by
  cases depth <;>
    exact ⟨_, by delta program; rfl, fun x hx => by simp only [hx]; rfl,
      fun x name hx hc ha => by simp only [hx, hc, if_neg ha]; rfl⟩

theorem program_of_image {depth i : Nat} {inode : Inode} {image : Bytes}
    (hf : t.find c cwd path = .ok (i, inode)) (hgrants : inode.grants c .execute = true)
    (hc : inode.content = .image image) (ha : ¬∃ a ∈ argv, argumentLimit < a.length) :
    t.program c cwd depth path argv = .ok (image, argv) := by
  obtain ⟨f, heq, -, himage⟩ := program_eq t c cwd depth path argv
  rw [heq, hf]
  exact himage (i, inode) image hgrants hc ha

theorem executable_of_program {depth : Nat} {x : Except Errno (Bytes × List Bytes)}
    (h : t.program c cwd depth path argv = x)
    (hx : x = .error Errno.notExecutable ∨ ∃ image, x = .ok image) : t.Executable c cwd path := by
  obtain ⟨f, heq, hdenied, -⟩ := program_eq t c cwd depth path argv
  rw [heq] at h
  cases hf : t.find c cwd path with
  | error e =>
    rw [hf] at h
    obtain rfl : .error e = x := h
    obtain he | ⟨image, he⟩ := hx
    · injection he with he
      exact absurd (he ▸ hf) find_ne_notExecutable
    · cases he
  | ok y =>
    obtain ⟨i, inode⟩ := y
    cases hgrants : inode.grants c .execute with
    | true => exact ⟨i, inode, hf, hgrants⟩
    | false =>
      rw [hf] at h
      obtain rfl : .error Errno.accessDenied = x := (hdenied (i, inode) hgrants).symm.trans h
      obtain h | ⟨image, h⟩ := hx <;> cases h

theorem access_eq_ok_iff {ι ρ : Type} {p : Process ι ρ} :
    p.access t path = .ok () ↔ t.Executable p.credentials p.directory path := by
  unfold Process.access Executable
  cases t.find p.credentials p.directory path with
  | error e => simp [bind, Except.bind]
  | ok x =>
    obtain ⟨i, inode⟩ := x
    have hfound : (∃ j inode', (Except.ok (i, inode) : Except Errno (Nat × Inode)) =
        .ok (j, inode') ∧ inode'.grants p.credentials .execute = true) ↔
          inode.grants p.credentials .execute = true :=
      ⟨fun ⟨_, _, h, hgrants⟩ => by cases h; exact hgrants, fun h => ⟨i, inode, rfl, h⟩⟩
    rw [hfound]
    cases hgrants : inode.grants p.credentials .execute <;>
      simp [bind, Except.bind, hgrants, throw, throwThe, MonadExceptOf.throw, pure, Except.pure]

theorem components_append (s u : Bytes) :
    components (s ++ Byte.slash :: u) = components s ++ components u := by
  simp only [components, Bytes.splitOn_append, List.filter_append]

theorem place_of_double_slash (hd : d.getLast? = some Byte.slash) {p : Place}
    (h : t.place c cwd (d ++ Byte.slash :: name) = .ok p) : t.place c cwd (d ++ name) = .ok p := by
  obtain ⟨s, rfl⟩ := List.getLast?_eq_some_iff.1 hd
  have hcomponents : components (s ++ [Byte.slash] ++ Byte.slash :: name) =
      components (s ++ [Byte.slash] ++ name) := by
    have hempty : components (Byte.slash :: name) = components name := components_append [] name
    simp only [List.append_assoc, List.singleton_append, components_append, hempty]
  have habsolute : isAbsolute (s ++ [Byte.slash] ++ Byte.slash :: name) =
      isAbsolute (s ++ [Byte.slash] ++ name) := by
    simp [isAbsolute]
  have hslash : hasTrailingSlash (s ++ [Byte.slash] ++ Byte.slash :: name) =
      hasTrailingSlash (s ++ [Byte.slash] ++ name) := by
    simp [hasTrailingSlash, List.getLast?_append]
  have hshort : pathError? (s ++ [Byte.slash] ++ Byte.slash :: name) = none →
      pathError? (s ++ [Byte.slash] ++ name) = none := by
    simp only [pathError?, List.append_eq_nil_iff, List.length_append, List.length_cons]
    grind
  unfold place at h ⊢
  rw [hcomponents, habsolute, hslash] at h
  split at h
  · cases h
  next hnone =>
    rw [hshort hnone]
    exact h

theorem executable_of_double_slash (hd : d.getLast? = some Byte.slash)
    (h : t.Executable c cwd (d ++ Byte.slash :: name)) : t.Executable c cwd (d ++ name) := by
  obtain ⟨i, inode, hfind, hgrants⟩ := h
  refine ⟨i, inode, ?_, hgrants⟩
  unfold find at hfind ⊢
  cases hp : t.place c cwd (d ++ Byte.slash :: name) with
  | error e =>
    rw [hp] at hfind
    cases hfind
  | ok p =>
    rw [hp] at hfind
    rw [place_of_double_slash hd hp]
    exact hfind

end FileTree

end PipeShell
