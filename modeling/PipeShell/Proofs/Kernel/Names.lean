import PipeShell.Kernel.Transfer
import PipeShell.Proofs.Kernel.Growth

/-! Files by name. A file is known by the directory that it is in and its name there, and it may be
missing. Writing to files makes no path lead elsewhere. Main statement: what a file holds after it
has been opened for the output of a line, and that no other path leads to it by that
(`openedFor_of_openAs`). -/
namespace PipeShell

structure FileName where
  directory : Nat
  name : Bytes
  deriving DecidableEq, Repr

namespace FileTree

variable (t : FileTree)

def regular? (i : Nat) : Option Bytes :=
  match (t.inodes.get? i).map Inode.content with
  | some (.regular s) => some s
  | _ => none

def number? (f : FileName) : Option Nat :=
  match (t.inodes.get? f.directory).map Inode.content with
  | some (.directory _ entries) => entries.lookup f.name
  | _ => none

def text? (f : FileName) : Option Bytes := (t.number? f).bind t.regular?

def IsRegular (f : FileName) : Prop := ∀ i, t.number? f = some i → ∃ s, t.regular? i = some s

def Has (i : Nat) : Prop := ∃ inode, t.inodes.get? i = some inode

/-- Whether a place is that of the file `f`, or the file cannot be opened there for writing. -/
def IsAt (f : FileName) : Place → Prop
  | .directory _ => True
  | .entry dir name found _ => found = t.number? f ∧ (found = none → f = ⟨dir, name⟩)

/-- Whether a place is that of another file than `f`, which may be missing as well. -/
def IsApart (f : FileName) : Place → Prop
  | .directory i | .entry _ _ (some i) _ => t.Has i ∧ t.number? f ≠ some i
  | .entry dir name none _ => f ≠ ⟨dir, name⟩

variable (c : Credentials) (cwd : Nat) (path : Bytes)

/-- Whether a path leads to the file `f` if it leads anywhere. -/
def LeadsTo (f : FileName) : Prop := ∀ p, t.place c cwd path = .ok p → t.IsAt f p

def LeadsElsewhere (f : FileName) : Prop := ∀ p, t.place c cwd path = .ok p → t.IsApart f p

end FileTree

namespace FileTree

variable {t t' : FileTree} {c : Credentials} {cwd i j : Nat} {inode : Inode} {s old path : Bytes}
  {f : FileName}

theorem regular?_eq_some_iff : t.regular? i = some s ↔
    ∃ inode, t.inodes.get? i = some inode ∧ inode.content = .regular s := by
  unfold regular?
  cases t.inodes.get? i with
  | none => simp
  | some inode => cases h : inode.content <;> simp [h]

theorem map_content_eq_regular_iff :
    (t.inodes.get? i).map Inode.content = some (.regular s) ↔ t.regular? i = some s := by
  rw [regular?_eq_some_iff, Option.map_eq_some_iff]

theorem text?_eq_some_iff : t.text? f = some s ↔
    ∃ i, t.number? f = some i ∧ t.regular? i = some s := Option.bind_eq_some_iff

theorem number?_of_directory {parent : Nat} {entries : List (Bytes × Nat)}
    (hi : t.inodes.get? i = some inode) (hc : inode.content = .directory parent entries)
    (name : Bytes) : t.number? ⟨i, name⟩ = entries.lookup name := by
  rw [number?, hi, Option.map_some, hc]

theorem number?_eq_none_of_regular (h : t.regular? f.directory = some s) : t.number? f = none := by
  obtain ⟨inode, hi, hc⟩ := regular?_eq_some_iff.1 h
  rw [number?, hi, Option.map_some, hc]

section SetContent

theorem get?_setContent (h : t.inodes.get? i = some inode) (content : Content) (j : Nat) :
    (t.setContent i content).inodes.get? j =
      if j = i then some { inode with content } else t.inodes.get? j := by
  rw [setContent, h]
  exact Table.get?_set _ _ _ _

variable (h : t.regular? i = some old)
include h

theorem regular?_setContent (s : Bytes) (j : Nat) :
    (t.setContent i (.regular s)).regular? j = if j = i then some s else t.regular? j := by
  obtain ⟨inode, hi, hc⟩ := regular?_eq_some_iff.1 h
  by_cases hj : j = i <;> simp [regular?, get?_setContent hi, hj]

theorem number?_setContent (s : Bytes) (f : FileName) :
    (t.setContent i (.regular s)).number? f = t.number? f := by
  obtain ⟨inode, hi, hc⟩ := regular?_eq_some_iff.1 h
  by_cases hf : f.directory = i
  · rw [number?, get?_setContent hi, if_pos hf]
    exact (number?_eq_none_of_regular (hf.symm ▸ h)).symm
  · rw [number?, get?_setContent hi, if_neg hf, number?]

theorem has_setContent (s : Bytes) : (t.setContent i (.regular s)).Has j ↔ t.Has j := by
  obtain ⟨inode, hi, -⟩ := regular?_eq_some_iff.1 h
  rw [Has, get?_setContent hi]
  split
  · rename_i hj
    simp [Has, hj, hi]
  · rfl

theorem text?_setContent_self (hf : t.number? f = some i) (s : Bytes) :
    (t.setContent i (.regular s)).text? f = some s := by
  rw [text?, number?_setContent h, hf, Option.bind_some, regular?_setContent h, if_pos rfl]

theorem text?_setContent_of_ne (hf : t.number? f ≠ some i) (s : Bytes) :
    (t.setContent i (.regular s)).text? f = t.text? f := by
  rw [text?, text?, number?_setContent h]
  cases hn : t.number? f with
  | none => rfl
  | some j =>
    rw [hn] at hf
    rw [Option.bind_some, Option.bind_some, regular?_setContent h,
      if_neg fun hj => hf (congrArg some hj)]

theorem follow_setContent (s : Bytes) (links dir : Nat) (names : List Bytes) (slash : Bool) :
    (t.setContent i (.regular s)).follow c links dir names slash =
      t.follow c links dir names slash := by
  obtain ⟨inode, hi, hc⟩ := regular?_eq_some_iff.1 h
  have hget := get?_setContent hi (.regular s)
  generalize t.setContent i (.regular s) = t' at hget ⊢
  fun_induction follow t c links dir names slash with
  | case1 => rw [follow]
  | _ => rw [follow]; grind

theorem place_setContent (s : Bytes) :
    (t.setContent i (.regular s)).place c cwd path = t.place c cwd path := by
  simp only [place, follow_setContent h]

theorem isAt_setContent {p : Place} (s : Bytes) :
    (t.setContent i (.regular s)).IsAt f p ↔ t.IsAt f p := by
  cases p with
  | directory j => rfl
  | entry => simp only [IsAt, number?_setContent h]

theorem isApart_setContent {p : Place} (s : Bytes) :
    (t.setContent i (.regular s)).IsApart f p ↔ t.IsApart f p := by
  obtain j | ⟨dir, name, _ | j, slash⟩ := p
  · simp only [IsApart, number?_setContent h, has_setContent h]
  · rfl
  · simp only [IsApart, number?_setContent h, has_setContent h]

theorem leadsTo_setContent (s : Bytes) :
    (t.setContent i (.regular s)).LeadsTo c cwd path f ↔ t.LeadsTo c cwd path f := by
  simp only [LeadsTo, place_setContent h, isAt_setContent h]

theorem leadsElsewhere_setContent (s : Bytes) :
    (t.setContent i (.regular s)).LeadsElsewhere c cwd path f ↔
      t.LeadsElsewhere c cwd path f := by
  simp only [LeadsElsewhere, place_setContent h, isApart_setContent h]

theorem isRegular_setContent (hf : t.IsRegular f) (s : Bytes) :
    (t.setContent i (.regular s)).IsRegular f := by
  intro j hj
  rw [number?_setContent h] at hj
  rw [regular?_setContent h]
  split
  · exact ⟨s, rfl⟩
  · exact hf j hj

end SetContent

/-- Whether all files are still there, and as far as `f` is concerned no name leads elsewhere. -/
structure Unmoved (t t' : FileTree) (f : FileName) : Prop where
  number : t'.number? f = t.number? f
  regular : t.IsRegular f → t'.IsRegular f
  has : ∀ i, t.Has i → t'.Has i
  leadsTo : ∀ c cwd path, t.LeadsTo c cwd path f → t'.LeadsTo c cwd path f
  elsewhere : ∀ c cwd path, t.LeadsElsewhere c cwd path f → t'.LeadsElsewhere c cwd path f

theorem Unmoved.refl (t : FileTree) (f : FileName) : t.Unmoved t f :=
  ⟨rfl, id, fun _ h => h, fun _ _ _ h => h, fun _ _ _ h => h⟩

theorem unmoved_setContent (h : t.regular? i = some old) (s : Bytes) (f : FileName) :
    t.Unmoved (t.setContent i (.regular s)) f where
  number := number?_setContent h s f
  regular hf := isRegular_setContent h hf s
  has _ := (has_setContent h s).2
  leadsTo _ _ _ := (leadsTo_setContent h s).2
  elsewhere _ _ _ := (leadsElsewhere_setContent h s).2

theorem get?_of_find {j : Nat} {slash : Bool} (h : (match t.inodes.get? j with
      | none => throw Errno.noEntry
      | some inode => if slash && !inode.isDirectory then throw Errno.notDirectory
        else return (j, inode) : Except Errno (Nat × Inode)) = .ok (i, inode)) :
    j = i ∧ t.inodes.get? i = some inode := by
  split at h
  · cases h
  · split at h
    · cases h
    · cases h
      exact ⟨rfl, ‹_›⟩

theorem find_eq_ok (h : t.find c cwd path = .ok (i, inode)) : t.inodes.get? i = some inode ∧
    ∃ p, t.place c cwd path = .ok p ∧
      (p = .directory i ∨ ∃ dir name slash, p = .entry dir name (some i) slash) := by
  unfold find at h
  cases hp : t.place c cwd path with
  | error e => rw [hp] at h; cases h
  | ok p =>
    rw [hp] at h
    obtain j | ⟨dir, name, _ | j, slash⟩ := p
    · obtain ⟨rfl, hi⟩ := get?_of_find h
      exact ⟨hi, _, rfl, .inl rfl⟩
    · cases h
    · obtain ⟨rfl, hi⟩ := get?_of_find h
      exact ⟨hi, _, rfl, .inr ⟨dir, name, slash, rfl⟩⟩

theorem openAs_read (h : t.openAs c cwd path .read = .ok (t', i)) : t' = t ∧ t.Has i := by
  unfold openAs at h
  cases hf : t.find c cwd path with
  | error e => rw [hf] at h; cases h
  | ok x =>
    obtain ⟨j, inode⟩ := x
    rw [hf] at h
    dsimp only [bind, Except.bind] at h
    split at h
    · cases h
      exact ⟨rfl, inode, (find_eq_ok hf).1⟩
    · cases h

theorem openAs_write (h : t.openAs c cwd path .write = .ok (t', i))
    (hf : t.LeadsElsewhere c cwd path f) : t' = t ∧ t.Has i ∧ t.number? f ≠ some i := by
  unfold openAs at h
  cases hx : t.find c cwd path with
  | error e => rw [hx] at h; cases h
  | ok x =>
    obtain ⟨j, inode⟩ := x
    rw [hx] at h
    dsimp only [bind, Except.bind] at h
    split at h
    · cases h
    · cases h
      obtain ⟨-, p, hp, hplace⟩ := find_eq_ok hx
      have hapart := hf p hp
      obtain rfl | ⟨dir, name, slash, rfl⟩ := hplace
      · exact ⟨rfl, hapart⟩
      · exact ⟨rfl, hapart⟩

theorem directory_of_follow {links dir : Nat} {names : List Bytes} {slash slash' : Bool}
    {name : Bytes} (h : t.follow c links dir names slash = .ok (.entry i name none slash')) :
    ∃ inode parent entries, t.inodes.get? i = some inode ∧
      inode.content = .directory parent entries ∧ entries.lookup name = none := by
  fun_induction follow t c links dir names slash with
  | _ => grind

theorem directory_of_place {slash : Bool} {name : Bytes}
    (h : t.place c cwd path = .ok (.entry i name none slash)) :
    ∃ inode parent entries, t.inodes.get? i = some inode ∧
      inode.content = .directory parent entries ∧ entries.lookup name = none := by
  unfold place at h
  split at h
  · cases h
  · exact directory_of_follow h

section Create

variable {dir parent : Nat} {entries : List (Bytes × Nat)} {d new : Inode} {name : Bytes}

theorem get?_above : t.inodes.get? t.inodes.above = none :=
  Table.get?_eq_none_of_above_le (Nat.le_refl _)

theorem get?_create (hd : t.inodes.get? dir = some d) (hc : d.content = .directory parent entries)
    (name : Bytes) (new : Inode) (j : Nat) : (t.create dir name new).1.inodes.get? j =
      if j = dir then
        some { d with content := .directory parent (entries ++ [(name, t.inodes.above)]) }
      else if j = t.inodes.above then some new else t.inodes.get? j := by
  have hne : dir ≠ t.inodes.above := by
    rintro rfl
    rw [get?_above] at hd
    cases hd
  simp only [create, link, Table.get?_set, if_neg hne, hd, hc]

theorem lookup_append_singleton (n : Bytes) (k : Nat) (hl : entries.lookup name = none) :
    (entries ++ [(name, k)]).lookup n = if n = name then some k else entries.lookup n := by
  rw [List.lookup_append]
  by_cases hn : n = name
  · subst hn
    simp [hl]
  · have : (n == name) = false := by simpa using hn
    simp [hn, List.lookup_cons, this]

theorem follow_create {links start : Nat} {names : List Bytes} {slash : Bool} {p : Place}
    (hd : t.inodes.get? dir = some d) (hc : d.content = .directory parent entries)
    (hl : entries.lookup name = none) (hnew : new.content = .regular s)
    (h : (t.create dir name new).1.follow c links start names slash = .ok p) :
    t.follow c links start names slash = .ok p ∨
      ∃ slash', p = .entry dir name (some t.inodes.above) slash' ∧
        t.follow c links start names slash = .ok (.entry dir name none slash') := by
  have hget := get?_create hd hc name new
  have habove := get?_above (t := t)
  have hlookup := fun n => lookup_append_singleton n t.inodes.above hl
  have hgrants : ∀ entries', ({ d with content := .directory parent entries' } : Inode).grants c
      .execute = d.grants c .execute := by
    intro entries'
    simp [Inode.grants, Inode.digitFor, Inode.isDirectory, hc]
  generalize (t.create dir name new).1 = t' at hget h
  generalize entries ++ [(name, t.inodes.above)] = entries' at *
  -- there is nothing below the new file
  have hbelow : ∀ links ns slash, ns ≠ [] → t'.follow c links t.inodes.above ns slash ≠ .ok p := by
    intro links ns slash hns
    obtain ⟨n, ns, rfl⟩ := List.exists_cons_of_ne_nil hns
    rw [follow, hget]
    grind
  fun_induction follow t c links start names slash with
  | case1 => rw [follow] at h; exact .inl h
  | _ => rw [follow] at h; grind

end Create

/-- What becomes of the files when `f`, which is number `i` then, is opened for the output of a
line. -/
structure OpenedFor (t t' : FileTree) (f : FileName) (mode : RedirectMode) (i : Nat) : Prop where
  number : t'.number? f = some i
  text : t'.text? f = some (if mode = .truncate then [] else (t.text? f).getD [])
  before : t.number? f = some i ∨ t.number? f = none ∧ ¬t.Has i
  has : ∀ j, j = i ∨ t.Has j → t'.Has j
  elsewhere : ∀ c cwd path, t.LeadsElsewhere c cwd path f → t'.LeadsElsewhere c cwd path f

theorem openedFor_self (hn : t.number? f = some i) (hi : t.regular? i = some old) :
    t.OpenedFor t f .append i where
  number := hn
  text := by
    have ht : t.text? f = some old := text?_eq_some_iff.2 ⟨i, hn, hi⟩
    rw [ht]
    rfl
  before := .inl hn
  has j hj := by
    obtain rfl | hj := hj
    · obtain ⟨inode, hget, -⟩ := regular?_eq_some_iff.1 hi
      exact ⟨inode, hget⟩
    · exact hj
  elsewhere _ _ _ h := h

theorem openedFor_truncate (hn : t.number? f = some i) (hi : t.regular? i = some old) :
    t.OpenedFor (t.truncate i) f .truncate i := by
  obtain ⟨inode, hget, hc⟩ := regular?_eq_some_iff.1 hi
  have htruncate : t.truncate i = t.setContent i (.regular []) := by
    rw [truncate, hget, Option.map_some, hc]
  rw [htruncate]
  refine ⟨(number?_setContent hi [] f).trans hn, text?_setContent_self hi hn [], .inl hn,
    fun j hj => (has_setContent hi []).2 ?_,
    fun c cwd path h => (leadsElsewhere_setContent hi []).2 h⟩
  obtain rfl | hj := hj
  · exact ⟨inode, hget⟩
  · exact hj

theorem openedFor_create {dir parent : Nat} {entries : List (Bytes × Nat)} {d new : Inode}
    {name : Bytes} {mode : RedirectMode} (hd : t.inodes.get? dir = some d)
    (hc : d.content = .directory parent entries) (hl : entries.lookup name = none)
    (hnew : new.content = .regular []) :
    t.OpenedFor (t.create dir name new).1 ⟨dir, name⟩ mode t.inodes.above := by
  have hget := get?_create hd hc name new
  have hmissing : t.number? ⟨dir, name⟩ = none := (number?_of_directory hd hc name).trans hl
  have hne : dir ≠ t.inodes.above := by
    intro he
    rw [he, get?_above] at hd
    cases hd
  have hnumber : (t.create dir name new).1.number? ⟨dir, name⟩ = some t.inodes.above := by
    have hdir := (hget dir).trans (if_pos rfl)
    exact (number?_of_directory hdir rfl name).trans
      ((lookup_append_singleton name _ hl).trans (if_pos rfl))
  have habove : (t.create dir name new).1.inodes.get? t.inodes.above = some new := by
    rw [hget, if_neg hne.symm, if_pos rfl]
  have hhas : ∀ j, t.Has j → (t.create dir name new).1.Has j ∧ j ≠ t.inodes.above := by
    rintro j ⟨inode, hj⟩
    have hja : j ≠ t.inodes.above := by
      rintro rfl
      rw [get?_above] at hj
      cases hj
    refine ⟨?_, hja⟩
    rw [Has, hget, if_neg hja]
    split
    · exact ⟨_, rfl⟩
    · exact ⟨inode, hj⟩
  refine ⟨hnumber, ?_, .inr ⟨hmissing, ?_⟩, ?_, ?_⟩
  · have htext : (t.create dir name new).1.regular? t.inodes.above = some [] :=
      regular?_eq_some_iff.2 ⟨new, habove, hnew⟩
    rw [text?, hnumber, Option.bind_some, htext, text?, hmissing]
    simp
  · rintro ⟨inode, h⟩
    rw [get?_above] at h
    cases h
  · rintro j (rfl | hj)
    · exact ⟨new, habove⟩
    · exact (hhas j hj).1
  · intro c cwd path h p hp
    have hplace : t.place c cwd path = .ok p ∨
        ∃ slash, t.place c cwd path = .ok (.entry dir name none slash) := by
      unfold place at hp ⊢
      split at hp
      · cases hp
      · obtain hold | ⟨slash, -, hold⟩ := follow_create hd hc hl hnew hp
        · exact .inl hold
        · exact .inr ⟨slash, hold⟩
    have hother : ∀ j, t.Has j → (t.create dir name new).1.Has j ∧
        (t.create dir name new).1.number? ⟨dir, name⟩ ≠ some j := by
      intro j hj
      obtain ⟨hj', hne⟩ := hhas j hj
      rw [hnumber]
      exact ⟨hj', fun he => hne (Option.some.inj he).symm⟩
    obtain hold | ⟨slash, hold⟩ := hplace
    · have hapart := h p hold
      obtain j | ⟨dir', name', _ | j, slash⟩ := p
      · exact hother j hapart.1
      · exact hapart
      · exact hother j hapart.1
    · exact absurd rfl (h _ hold)

theorem openedFor_of_openAs {mode : RedirectMode}
    (h : t.openAs c cwd path (.create mode) = .ok (t', i)) (hf : t.LeadsTo c cwd path f)
    (hr : t.IsRegular f) : t.OpenedFor t' f mode i := by
  unfold openAs openOrCreate at h
  dsimp only at h
  cases hp : t.place c cwd path with
  | error e => rw [hp] at h; cases h
  | ok p =>
    rw [hp] at h
    dsimp only [bind, Except.bind] at h
    have hat := hf p hp
    split at h
    · cases h
    · cases h
    · -- a new file
      obtain ⟨hn, he⟩ := hat
      obtain rfl := he rfl
      split at h
      · cases h
        obtain ⟨d, parent, entries, hd, hc, hl⟩ := directory_of_place hp
        exact openedFor_create hd hc hl rfl
      · cases h
    · obtain ⟨hn, -⟩ := hat
      obtain ⟨old, hi⟩ := hr _ hn.symm
      split at h
      · cases h
      · split at h
        · cases h
        · cases h
          cases mode with
          | truncate => exact openedFor_truncate hn.symm hi
          | append => exact openedFor_self hn.symm hi

end FileTree

end PipeShell
