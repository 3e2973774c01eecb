import PipeShell.Proofs.Kernel.Chronicle
import PipeShell.Proofs.Kernel.Sound

/-! A file in the custody of one open file, through which alone it is written. Main statements: what
happens to other files leaves it alone (`Guards.mild`, `text?_of_change`), and it holds what it held
when it was opened and then what has been written to the open file (`Fills.change`,
`fills_of_openedFor`). -/
namespace PipeShell

variable {ι ρ : Type}

namespace Note

def dataOf (n : Nat) : Note → Bytes
  | .wrote k data => if k = n then data else []
  | .opened _ _ _ _ | .launched _ _ => []

/-- Who opens a file for output, for which redirection, and as which open file. -/
def opening? : Note → Option (Pid × Redirect × Nat)
  | .opened pid path mode n => some (pid, ⟨path, mode⟩, n)
  | .wrote _ _ | .launched _ _ => none

/-- The open file that process `q` has as its standard output when it becomes a program. -/
def stdoutOf? (q : Pid) : Note → Option Nat
  | .launched pid n => if pid = q then n else none
  | .opened _ _ _ _ | .wrote _ _ => none

theorem eq_of_stdoutOf? {q : Pid} {n : Nat} {note : Note} (h : note.stdoutOf? q = some n) :
    note = .launched q (some n) := by
  cases note with
  | launched pid o =>
    obtain ⟨rfl, rfl⟩ : pid = q ∧ o = some n := by simpa [stdoutOf?] using h
    rfl
  | opened | wrote => cases h

theorem mem_of_findSome?_stdoutOf? {q : Pid} {n : Nat} {ns : List Note}
    (h : ns.findSome? (stdoutOf? q) = some n) : .launched q (some n) ∈ ns := by
  obtain ⟨note, hm, hnote⟩ := List.exists_of_findSome?_eq_some h
  obtain rfl := eq_of_stdoutOf? hnote
  exact hm

theorem eq_none_of_findSome?_stdoutOf? {q : Pid} {o : Option Nat} {ns : List Note}
    (h : ns.findSome? (stdoutOf? q) = none) (hm : .launched q o ∈ ns) : o = none := by
  simpa [stdoutOf?] using List.findSome?_eq_none_iff.1 h _ hm

end Note

def outputOf (n : Nat) (ns : List Note) : Bytes := ns.flatMap (Note.dataOf n)

variable {s s' : System ι ρ} {pid : Pid} {p : Process ι ρ} {e : Event} {ns ms : List Note}
  {f : FileName} {o : Option Nat} {n i : Nat} {held : Bytes} {mode : RedirectMode}

@[simp] theorem outputOf_append : outputOf n (ns ++ ms) = outputOf n ns ++ outputOf n ms :=
  List.flatMap_append

theorem outputOf_eq_nil (h : ∀ note ∈ ns, note.dataOf n = []) : outputOf n ns = [] :=
  List.flatMap_eq_nil_iff.2 h

theorem Chronicle.outputOf_above {m : Machine ι} {s₀ : System ι ρ} {H : Pid → Past}
    (h : Chronicle m s₀ ns H s) : outputOf s.openFiles.above ns = [] := by
  refine outputOf_eq_nil fun note hnote => ?_
  cases note with
  | opened | launched => rfl
  | wrote n data => exact if_neg (Nat.ne_of_lt (h.lt_above hnote))

theorem outputOf_launches : outputOf n (s.launches s') = [] := by
  refine outputOf_eq_nil fun note hm => ?_
  obtain ⟨pid, p, p', -, -, -, -, rfl⟩ := System.mem_launches.1 hm
  rfl

theorem opening?_of_launches : ∀ note ∈ s.launches s', note.opening? = none := by
  intro note hm
  obtain ⟨pid, p, p', -, -, -, -, rfl⟩ := System.mem_launches.1 hm
  rfl

/-- Whether nothing has been written to open file `n`, and nobody has it open. -/
structure Abandoned (n : Nat) (ns : List Note) (s : System ι ρ) : Prop where
  output : outputOf n ns = []
  holders : ∀ pid x, s.process? pid = some x → ¬x.HasOpen n

theorem Abandoned.deed {m : Machine ι} {H H' : Pid → Past} (h : Abandoned n ns s)
    (hd : Deed m H s ms H' s') (hn : n < s.openFiles.above) : Abandoned n (ns ++ ms) s' where
  output := by
    rw [outputOf_append, h.output, List.nil_append]
    cases hd with
    | other => exact outputOf_launches
    | answered hp =>
      refine outputOf_eq_nil fun note hm => ?_
      cases note with
      | opened | launched => rfl
      | wrote k data =>
        refine if_neg ?_
        rintro rfl
        obtain ⟨fd, d, g, -, ho⟩ := System.exists_write_of_notes hm
        obtain ⟨d', hd, hdk, -⟩ := (System.openFile?_eq_some_iff s _ fd k g).1 ho
        exact h.holders _ _ hp ⟨fd, d', hd, hdk⟩
  holders pid y hy hyn := by
    obtain ⟨x, hx, hxn⟩ | ⟨-, q, x, k, hx, -, hxn, -⟩ | habove := hd.move.hasOpen hy hyn
    · exact h.holders pid x hx hxn
    · exact h.holders q x hx hxn
    · exact Nat.not_lt_of_le habove hn

namespace Bytes

theorem overwrite_length (old new : Bytes) : old.overwrite old.length new = old ++ new := by
  simp [overwrite]

end Bytes

namespace System

def Writes (s : System ι ρ) (x : Process ι ρ) (n i : Nat) : Prop :=
  x.HasOpen n ∧ ∃ g, s.openFiles.get? n = some g ∧ g.writable = true ∧ g.resource = .file i

/-- Whether the file `f` is a regular one, and can be written to through the open file `o` alone. -/
structure Guards (s : System ι ρ) (f : FileName) (o : Option Nat) : Prop where
  files : ∀ n g i, s.openFiles.get? n = some g → g.resource = .file i → s.files.Has i
  regular : s.files.IsRegular f
  writers : ∀ pid x n i, s.process? pid = some x → s.Writes x n i →
    s.files.number? f = some i → o = some n

/-- Whether what is new in `s'` is of no concern to the file `f`. -/
structure Mild (s s' : System ι ρ) (f : FileName) : Prop where
  unmoved : s.files.Unmoved s'.files f
  openFiles : ∀ n g i, s'.openFiles.get? n = some g → g.resource = .file i →
    (∃ position, s.openFiles.get? n = some { g with position }) ∨
      s.files.Has i ∧ (g.writable = true → s.files.number? f ≠ some i)

theorem Guards.mild (h : s.Guards f o) (hm : Mild s s' f)
    (hopen : ∀ pid y n, s'.process? pid = some y → y.HasOpen n →
      (∃ q x, s.process? q = some x ∧ x.HasOpen n) ∨ s.openFiles.get? n = none) :
    s'.Guards f o where
  files n g i hg hi := by
    obtain ⟨position, hold⟩ | ⟨hhas, -⟩ := hm.openFiles n g i hg hi
    · exact hm.unmoved.has i (h.files n _ i hold hi)
    · exact hm.unmoved.has i hhas
  regular := hm.unmoved.regular h.regular
  writers pid y n i hy hw hi := by
    obtain ⟨hn, g, hg, hwritable, hr⟩ := hw
    rw [hm.unmoved.number] at hi
    obtain ⟨position, hold⟩ | ⟨-, hother⟩ := hm.openFiles n g i hg hr
    · obtain ⟨q, x, hx, hxn⟩ | hnone := hopen pid y n hy hn
      · exact h.writers q x n i hx ⟨hxn, _, hold, hwritable, hr⟩ hi
      · rw [hold] at hnone
        cases hnone
    · exact absurd hi (hother hwritable)

def Spares (s : System ι ρ) (p : Process ι ρ) (f : FileName) (e : Event) : Prop :=
  ∀ path mode fd, e = ⟨.openFile path mode, .ok fd⟩ → mode = .read ∨
    mode = .write ∧ s.files.LeadsElsewhere p.credentials p.directory path f

theorem Quiet.mild (h : Quiet s s') (f : FileName) : Mild s s' f where
  unmoved := h.files ▸ .refl _ f
  openFiles n g i hg hi := .inl (h.added n g i hg hi)

theorem mild_of_set {g : OpenFile} (hf : s'.files = s.files)
    (ho : s'.openFiles = s.openFiles.set s.openFiles.above g) (hi : g.resource = .file i)
    (hhas : s.files.Has i) (hg : g.writable = true → s.files.number? f ≠ some i) :
    Mild s s' f where
  unmoved := hf ▸ .refl _ f
  openFiles k g' j hg' hj := by
    rw [ho, Table.get?_set] at hg'
    split at hg'
    · obtain rfl := Option.some.inj hg'
      obtain rfl := Resource.file.inj (hi.symm.trans hj)
      exact .inr ⟨hhas, hg⟩
    · exact .inl ⟨g'.position, hg'⟩

theorem mild_of_openAs {path : Bytes} {md : OpenMode} {fd : Fd}
    (h : s.files.openAs p.credentials p.directory path md = .ok (s'.files, i))
    (ho : s'.openFiles = s.openFiles.set s.openFiles.above (md.openFile i))
    (hs : s.Spares p f ⟨.openFile path md, .ok fd⟩) : s'.files = s.files ∧ Mild s s' f := by
  obtain rfl | ⟨rfl, hpath⟩ := hs path md fd rfl
  · obtain ⟨hfiles, hhas⟩ := FileTree.openAs_read h
    exact ⟨hfiles, mild_of_set hfiles ho rfl hhas nofun⟩
  · obtain ⟨hfiles, hhas, hne⟩ := FileTree.openAs_write h hpath
    exact ⟨hfiles, mild_of_set hfiles ho rfl hhas fun _ => hne⟩

theorem Change.mild (h : Change s s' pid p e ns) (hs : s.Spares p f e) : Mild s s' f := by
  cases h with
  | quiet hq => exact hq.mild f
  | opened h ho => exact (mild_of_openAs h ho hs).2
  | @wrote fd data old k j g h hw hr hi hf ho =>
    obtain ⟨-, -, -, hk⟩ := (openFile?_eq_some_iff s p fd k g).1 h
    refine ⟨hf ▸ FileTree.unmoved_setContent hi _ f, fun k' g' j' hg' hj' => .inl ?_⟩
    rw [ho, Table.get?_set] at hg'
    split at hg'
    · obtain rfl := Option.some.inj hg'
      exact ⟨g.position, ‹k' = k› ▸ hk⟩
    · exact ⟨g'.position, hg'⟩

theorem opening?_of_change (h : Change s s' pid p e ns) (hs : s.Spares p f e) :
    ∀ note ∈ ns, note.opening? = none := by
  intro note hm
  cases h with
  | quiet hq hn =>
    have hidle := hn note hm
    cases note with
    | opened => exact hidle.elim
    | wrote | launched => rfl
  | @opened path mode fd i h ho =>
    obtain rfl | ⟨rfl, -⟩ := hs path mode fd rfl
    · cases hm
    · cases hm
  | wrote =>
    obtain rfl := List.mem_singleton.1 hm
    rfl

theorem text?_of_change (h : Change s s' pid p e ns) (hp : s.process? pid = some p)
    (hg : s.Guards f none) (hs : s.Spares p f e) : s'.files.text? f = s.files.text? f := by
  cases h with
  | quiet hq => rw [hq.files]
  | opened h ho => rw [(mild_of_openAs h ho hs).1]
  | @wrote fd data old k j g h hw hr hi hf ho =>
    obtain ⟨d, hd, hdk, hk⟩ := (openFile?_eq_some_iff s p fd k g).1 h
    have hne : s.files.number? f ≠ some j := by
      intro hj
      cases hg.writers pid p k j hp ⟨⟨fd, d, hd, hdk⟩, g, hk, hw, hr⟩ hj
    rw [hf, FileTree.text?_setContent_of_ne hi hne]

/-- Whether the file `f` is open as number `n`, which is where the next output goes, and holds
`held`. -/
structure Fills (s : System ι ρ) (f : FileName) (mode : RedirectMode) (n i : Nat) (held : Bytes) :
    Prop where
  number : s.files.number? f = some i
  text : s.files.text? f = some held
  openFile : ∃ position,
    s.openFiles.get? n = some ⟨.file i, false, true, mode = .append, position⟩ ∧
      (mode = .truncate → position = held.length)

theorem start_eq {position : Nat} (h : mode = .truncate → position = held.length) :
    OpenFile.start ⟨.file i, false, true, mode = .append, position⟩ held = held.length := by
  cases mode with
  | truncate => exact h rfl
  | append => rfl

theorem Fills.of_eq (h : s.Fills f mode n i held) (hf : s'.files = s.files)
    (ho : s'.openFiles.get? n = s.openFiles.get? n) : s'.Fills f mode n i held where
  number := hf ▸ h.number
  text := hf ▸ h.text
  openFile := ho ▸ h.openFile

theorem Fills.change (h : s.Fills f mode n i held) (hg : s.Guards f (some n))
    (hp : s.process? pid = some p) (hc : Change s s' pid p e ns) (hs : s.Spares p f e) :
    s'.Fills f mode n i (held ++ outputOf n ns) := by
  obtain ⟨position, hn, hposition⟩ := h.openFile
  have hnumber := h.number
  have hregular : s.files.regular? i = some held := by
    obtain ⟨i', hi', hr⟩ := FileTree.text?_eq_some_iff.1 h.text
    obtain rfl := Option.some.inj (hnumber.symm.trans hi')
    exact hr
  cases hc with
  | quiet hq hidle =>
    have hnone : outputOf n ns = [] := by
      refine outputOf_eq_nil fun note hm => ?_
      have hnote := hidle note hm
      cases note with
      | opened => exact hnote.elim
      | launched => rfl
      | wrote k data =>
        by_cases hk : k = n
        · subst k
          obtain rfl | hnone := hnote
          · simp [Note.dataOf]
          · rw [hnone _ i hn rfl] at hregular
            cases hregular
        · simp [Note.dataOf, hk]
    rw [hnone, List.append_nil]
    exact h.of_eq hq.files ((hq.kept n _ hn rfl).trans hn.symm)
  | @opened path md fd j ho hset =>
    have hnone : outputOf n (s.notes pid p ⟨.openFile path md, .ok fd⟩) = [] := by
      obtain rfl | ⟨rfl, -⟩ := hs path md fd rfl <;> rfl
    have hlt := Table.lt_above_of_get?_eq_some hn
    rw [hnone, List.append_nil]
    refine h.of_eq (mild_of_openAs ho hset hs).1 ?_
    rw [hset, Table.get?_set, if_neg (Nat.ne_of_lt hlt)]
  | @wrote fd data old k j g ho hw hr hj hf hset =>
    obtain ⟨d, hd, hdk, hk⟩ := (openFile?_eq_some_iff s p fd k g).1 ho
    by_cases hi : j = i
    · -- the file itself
      subst j
      obtain rfl : n = k := Option.some.inj
        (hg.writers pid p k i hp ⟨⟨fd, d, hd, hdk⟩, g, hk, hw, hr⟩ hnumber)
      obtain rfl := Option.some.inj (hn.symm.trans hk)
      obtain rfl := Option.some.inj (hj.symm.trans hregular)
      have hout : outputOf n [.wrote n data] = data := by simp [outputOf, Note.dataOf]
      rw [start_eq hposition, Bytes.overwrite_length] at hf
      rw [start_eq hposition] at hset
      rw [hout]
      refine ⟨?_, ?_, old.length + data.length, ?_, fun _ => List.length_append.symm⟩
      · rw [hf, FileTree.number?_setContent hregular, hnumber]
      · rw [hf, FileTree.text?_setContent_self hregular hnumber]
      · rw [hset, Table.get?_set, if_pos rfl]
    · -- another file
      have hkn : k ≠ n := by
        rintro rfl
        obtain rfl := Option.some.inj (hn.symm.trans hk)
        exact hi (Resource.file.inj hr).symm
      have hout : outputOf n [.wrote k data] = [] := by simp [outputOf, Note.dataOf, hkn]
      have hne : s.files.number? f ≠ some j := fun he =>
        hi (Option.some.inj (hnumber.symm.trans he)).symm
      rw [hout, List.append_nil]
      refine ⟨?_, ?_, position, ?_, hposition⟩
      · rw [hf, FileTree.number?_setContent hj, hnumber]
      · rw [hf, FileTree.text?_setContent_of_ne hj hne, h.text]
      · rw [hset, Table.get?_set, if_neg (Ne.symm hkn), hn]

section Opening

variable (h : s.files.OpenedFor s'.files f mode i) (hg : s.Guards f none)
  (ho : s'.openFiles = s.openFiles.set s.openFiles.above ((OpenMode.create mode).openFile i))
include h ho

theorem fills_of_openedFor : s'.Fills f mode s.openFiles.above i
    (if mode = .truncate then [] else (s.files.text? f).getD []) := by
  refine ⟨h.number, h.text, 0, ?_, fun hm => by simp [hm]⟩
  rw [ho, Table.get?_set, if_pos rfl]
  rfl

include hg

theorem guards_of_openedFor (hopen : ∀ pid y n, s'.process? pid = some y → y.HasOpen n →
      (∃ q x, s.process? q = some x ∧ x.HasOpen n) ∨ s.openFiles.get? n = none) :
    s'.Guards f (some s.openFiles.above) := by
  have hopenFiles : ∀ n g, s'.openFiles.get? n = some g →
      n = s.openFiles.above ∧ g.resource = .file i ∨ s.openFiles.get? n = some g := by
    intro n g hn
    rw [ho, Table.get?_set] at hn
    split at hn
    · obtain rfl := Option.some.inj hn
      exact .inl ⟨‹_›, rfl⟩
    · exact .inr hn
  refine ⟨fun n g j hn hj => ?_, fun j hj => ?_, fun pid y n j hy hw hj => ?_⟩
  · obtain ⟨-, hi⟩ | hold := hopenFiles n g hn
    · exact h.has j (.inl (Resource.file.inj (hj.symm.trans hi)))
    · exact h.has j (.inr (hg.files n g j hold hj))
  · obtain ⟨j', hj', hregular⟩ := FileTree.text?_eq_some_iff.1 h.text
    obtain rfl := Option.some.inj (hj.symm.trans hj')
    exact ⟨_, hregular⟩
  · obtain ⟨hn, g, hget, hwritable, hr⟩ := hw
    obtain rfl := Option.some.inj (hj.symm.trans h.number)
    obtain ⟨rfl, -⟩ | hold := hopenFiles n g hget
    · rfl
    · -- it was open before, but then somebody could write to the file
      have hnumber : s.files.number? f = some j := by
        obtain hnumber | ⟨-, hnot⟩ := h.before
        · exact hnumber
        · exact absurd (hg.files n g j hold hr) hnot
      obtain ⟨q, x, hx, hxn⟩ | hnone := hopen pid y n hy hn
      · cases hg.writers q x n j hx ⟨hxn, g, hold, hwritable, hr⟩ hnumber
      · rw [hold] at hnone
        cases hnone

end Opening

end System

end PipeShell
