import Mathlib.Logic.Function.Basic
import PipeShell.Proofs.Program.Trace

/-! Descriptors as a process's own events tell of them. At first every descriptor that is open is
inherited; duplicating, closing and opening change where a descriptor comes from, and no other call
does (`after_of_not_moves`). What is done from some layout on is the same as from the start
(`after_eq_resolve`), and nothing has been opened but by an event (`opened_of_layout`). -/
namespace PipeShell

/-- Whether a call with this reply has no effect on descriptors, directory and signals. -/
def Event.isNeutral : Event → Bool
  | ⟨.defaultBrokenPipe, _⟩ | ⟨.close _, _⟩ => false
  | ⟨.pipe, r⟩ => !Except.isOk (r : Except Errno (Fd × Fd))
  | ⟨.dup2 _ _, r⟩ => !Except.isOk (r : Except Errno Unit)
  | ⟨.openFile _ _, r⟩ => !Except.isOk (r : Except Errno Fd)
  | ⟨.chdir _, r⟩ => !Except.isOk (r : Except Errno Unit)
  | _ => true

def Syscall.movesDescriptors : Syscall → Bool
  | .pipe | .dup2 _ _ | .close _ | .openFile _ _ => true
  | _ => false

/-- Where a descriptor comes from: from the same or another number at the start, from a file that
was opened, or from a pipe that was opened. -/
inductive Origin
  | inherited (fd : Fd)
  | opened (path : Bytes) (mode : OpenMode)
  | piped
  deriving DecidableEq, Repr

structure Slot where
  origin : Origin
  duplicated : Bool
  deriving DecidableEq, Repr

namespace Slot

def duplicate (x : Slot) : Slot := { x with duplicated := true }

def isOutput (x : Slot) : Bool :=
  match x.origin with
  | .opened _ (.create _) => true
  | _ => false

theorem exists_of_isOutput {x : Slot} (h : x.isOutput = true) :
    ∃ path mode b, x = ⟨.opened path (.create mode), b⟩ := by
  obtain ⟨g | ⟨path, mode⟩ | _, b⟩ := x
  · cases h
  · cases mode with
    | create mode => exact ⟨path, mode, b, rfl⟩
    | read | write => cases h
  · cases h

end Slot

abbrev Layout := Fd → Option Slot

namespace Layout

def initial : Layout := fun fd => some ⟨.inherited fd, false⟩

theorem eq_of_initial {fd g : Fd} {b : Bool} (h : initial fd = some ⟨.inherited g, b⟩) :
    g = fd := by
  have h : some (⟨.inherited fd, false⟩ : Slot) = some ⟨.inherited g, b⟩ := h
  injection h with h
  injection h with h
  injection h with h
  exact h.symm

def read (L : Layout) : Event → Layout
  | ⟨.dup2 a b, r⟩ => match (r : Except Errno Unit) with
    | .ok () => if a = b then L else Function.update L b ((L a).map Slot.duplicate)
    | .error _ => L
  | ⟨.close fd, _⟩ => Function.update L fd none
  | ⟨.openFile path mode, r⟩ => match (r : Except Errno Fd) with
    | .ok fd => Function.update L fd (some ⟨.opened path mode, false⟩)
    | .error _ => L
  | ⟨.pipe, r⟩ => match (r : Except Errno (Fd × Fd)) with
    | .ok (a, b) => Function.update (Function.update L a (some ⟨.piped, false⟩)) b
        (some ⟨.piped, false⟩)
    | .error _ => L
  | _ => L

theorem read_of_isNeutral {L : Layout} {e : Event} (h : e.isNeutral = true) : L.read e = L := by
  obtain ⟨c, r⟩ := e
  cases c with
  | close | defaultBrokenPipe => cases h
  | dup2 | openFile | pipe => cases r <;> first | rfl | cases h
  | _ => rfl

def after (L : Layout) (es : List Event) : Layout := es.foldl read L

variable {L : Layout} {O : Fd → Prop} {es fs : List Event}

@[simp] theorem after_nil : L.after [] = L := rfl

@[simp] theorem after_cons (e : Event) : L.after (e :: es) = (L.read e).after es := rfl

@[simp] theorem after_append : L.after (es ++ fs) = (L.after es).after fs := List.foldl_append

@[simp] theorem after_replicate_openFile (n : Nat) (path : Bytes) (mode : OpenMode) (e : Errno) :
    L.after (List.replicate n ⟨.openFile path mode, .error e⟩) = L := by
  induction n with
  | zero => rfl
  | succ n ih => exact ih

theorem after_of_not_moves (h : ∀ e ∈ es, e.call.movesDescriptors = false) : L.after es = L := by
  induction es with
  | nil => rfl
  | cons e es ih =>
    have he : L.read e = L := by
      obtain ⟨c, r⟩ := e
      have hc : c.movesDescriptors = false := h ⟨c, r⟩ List.mem_cons_self
      cases c <;> first | rfl | cases hc
    rw [after_cons, he]
    exact ih fun e he => h e (List.mem_cons_of_mem _ he)

theorem after_of_closes {fds : List Fd} (h : es.map Event.call = fds.map .close) (fd : Fd) :
    L.after es fd = if fd ∈ fds then none else L fd := by
  induction fds generalizing L es with
  | nil =>
    obtain rfl := List.map_eq_nil_iff.1 h
    rfl
  | cons k fds ih =>
    obtain ⟨⟨c, r⟩, es, rfl, hc, hes⟩ := List.map_eq_cons_iff.1 h
    obtain rfl : c = .close k := hc
    rw [after_cons, ih hes]
    by_cases hk : fd = k
    · simp [read, hk]
    · simp [read, hk]

/-- What `L'` has inherited from the start, `L` has inherited in the same place. -/
def Keeps (L L' : Layout) : Prop :=
  ∀ fd g b, L' fd = some ⟨.inherited g, b⟩ → L fd = some ⟨.inherited g, b⟩

theorem Keeps.refl (L : Layout) : L.Keeps L := fun _ _ _ h => h

theorem Keeps.trans {L L' L'' : Layout} (h : L.Keeps L') (h' : L'.Keeps L'') : L.Keeps L'' :=
  fun fd g b hL => h fd g b (h' fd g b hL)

theorem keeps_update {x : Option Slot} (k : Fd) (hx : ∀ g b, x ≠ some ⟨.inherited g, b⟩) :
    L.Keeps (Function.update L k x) := by
  intro fd g b h
  rw [Function.update_apply] at h
  split at h
  · exact absurd h (hx g b)
  · exact h

theorem keeps_read {e : Event} (h : ∀ a b, e ≠ ⟨.dup2 a b, .ok ()⟩) : L.Keeps (L.read e) := by
  obtain ⟨c, r⟩ := e
  cases c with
  | dup2 a b =>
    match r with
    | .ok () => exact absurd rfl (h a b)
    | .error _ => exact .refl L
  | close fd => exact keeps_update fd (by simp)
  | openFile path mode =>
    match r with
    | .ok fd => exact keeps_update fd (by simp)
    | .error _ => exact .refl L
  | pipe =>
    match r with
    | .ok (a, b) => exact (keeps_update a (by simp)).trans (keeps_update b (by simp))
    | .error _ => exact .refl L
  | _ => exact .refl L

theorem keeps_after (h : ∀ a b, (⟨.dup2 a b, .ok ()⟩ : Event) ∉ es) : L.Keeps (L.after es) := by
  induction es generalizing L with
  | nil => exact .refl L
  | cons e es ih =>
    have he : L.Keeps (L.read e) := keeps_read fun a b he => h a b (he ▸ List.mem_cons_self)
    exact he.trans (ih fun a b hm => h a b (List.mem_cons_of_mem e hm))

theorem not_inherited_of_closed (h : ∀ a b, (⟨.dup2 a b, .ok ()⟩ : Event) ∉ es) {fd g : Fd}
    {b : Bool} {r : Except Errno Unit} (hm : (⟨.close g, r⟩ : Event) ∈ es) :
    initial.after es fd ≠ some ⟨.inherited g, b⟩ := by
  obtain ⟨es₁, es₂, rfl⟩ := List.append_of_mem hm
  intro hL
  rw [after_append, after_cons] at hL
  have hclosed := keeps_after (fun a c hd => h a c (by simp [hd])) fd g b hL
  simp only [read, Function.update_apply] at hclosed
  split at hclosed
  · cases hclosed
  · have hfirst := keeps_after (fun a c hd => h a c (by simp [hd])) fd g b hclosed
    exact ‹¬fd = g› (eq_of_initial hfirst).symm

theorem inherited_of_after {fd g : Fd} {b : Bool} (h : L.after es fd = some ⟨.inherited g, b⟩) :
    ∃ fd b, L fd = some ⟨.inherited g, b⟩ := by
  induction es generalizing L with
  | nil => exact ⟨fd, b, h⟩
  | cons e es ih =>
    obtain ⟨fd, b, h⟩ := ih h
    by_cases hd : ∃ a c, e = ⟨.dup2 a c, .ok ()⟩
    · obtain ⟨a, c, rfl⟩ := hd
      simp only [read] at h
      split at h
      · exact ⟨fd, b, h⟩
      · rw [Function.update_apply] at h
        split at h
        · obtain ⟨⟨origin, d⟩, hx, hs⟩ := Option.map_eq_some_iff.1 h
          obtain ⟨rfl, -⟩ := Slot.mk.inj hs
          exact ⟨a, d, hx⟩
        · exact ⟨fd, b, h⟩
    · exact ⟨fd, b, keeps_read (fun a c he => hd ⟨a, c, he⟩) fd g b h⟩

/-- Whether a descriptor can be given to something new, if `O` are those that were open at the
start. -/
def Free (O : Fd → Prop) (L : Layout) (fd : Fd) : Prop :=
  ∀ x, L fd = some x → ∃ g, x.origin = .inherited g ∧ ¬O g

def FreshEvent (O : Fd → Prop) (L : Layout) : Event → Prop
  | ⟨.openFile _ _, r⟩ => match (r : Except Errno Fd) with
    | .ok fd => L.Free O fd
    | .error _ => True
  | ⟨.pipe, r⟩ => match (r : Except Errno (Fd × Fd)) with
    | .ok (a, b) => L.Free O a ∧ L.Free O b ∧ a ≠ b
    | .error _ => True
  | _ => True

def Fresh (O : Fd → Prop) (L : Layout) : List Event → Prop
  | [] => True
  | e :: es => L.FreshEvent O e ∧ (L.read e).Fresh O es

theorem fresh_append : L.Fresh O (es ++ fs) ↔ L.Fresh O es ∧ (L.after es).Fresh O fs := by
  induction es generalizing L with
  | nil => simp [Fresh]
  | cons e es ih => simp [Fresh, ih, and_assoc]

theorem fresh_concat {e : Event} : L.Fresh O (es ++ [e]) ↔
    L.Fresh O es ∧ (L.after es).FreshEvent O e := by
  simp [fresh_append, Fresh]

end Layout

def layout (es : List Event) : Layout := Layout.initial.after es

namespace Layout

variable {L M K : Layout} {e : Event} {es : List Event} {fd g : Fd} {path : Bytes} {mode : OpenMode}
  {b : Bool}

/-- What a slot stands for if `L` was the layout at the start. -/
def resolve (L : Layout) (x : Slot) : Option Slot :=
  match x.origin with
  | .inherited g => (L g).map fun y => if x.duplicated then y.duplicate else y
  | _ => some x

theorem resolve_duplicate (x : Slot) :
    L.resolve x.duplicate = (L.resolve x).map Slot.duplicate := by
  obtain ⟨g | _, b⟩ := x
  · show (L g).map Slot.duplicate = ((L g).map _).map Slot.duplicate
    rw [Option.map_map]
    cases b <;> rfl
  · rfl
  · rfl

theorem read_eq_resolve (h : ∀ fd, L fd = (M fd).bind K.resolve) (e : Event) (fd : Fd) :
    L.read e fd = (M.read e fd).bind K.resolve := by
  have hupdate : ∀ {L M : Layout} {x y : Option Slot} (k fd : Fd),
      (∀ fd, L fd = (M fd).bind K.resolve) → x = y.bind K.resolve →
        Function.update L k x fd = (Function.update M k y fd).bind K.resolve := by
    intro L M x y k fd h hx
    rw [Function.update_apply, Function.update_apply]
    split
    · exact hx
    · exact h fd
  obtain ⟨c, r⟩ := e
  cases c with
  | close k => exact hupdate k fd h rfl
  | dup2 a c =>
    obtain e | u : Except Errno Unit := r
    · exact h fd
    · show (if a = c then L else _) fd = ((if a = c then M else _) fd).bind K.resolve
      split
      · exact h fd
      · refine hupdate c fd h ?_
        rw [h a]
        cases M a with
        | none => rfl
        | some x => exact (resolve_duplicate x).symm
  | openFile path mode =>
    obtain e | k : Except Errno Fd := r
    · exact h fd
    · exact hupdate k fd h rfl
  | pipe =>
    obtain e | ⟨a, c⟩ : Except Errno (Fd × Fd) := r
    · exact h fd
    · exact hupdate c fd (fun fd => hupdate a fd h rfl) rfl
  | _ => exact h fd

/-- What is done is the same from any layout on. -/
theorem after_eq_resolve (L : Layout) (es : List Event) (fd : Fd) :
    L.after es fd = (layout es fd).bind L.resolve := by
  have hafter : ∀ es (L M K : Layout), (∀ fd, L fd = (M fd).bind K.resolve) →
      ∀ fd, L.after es fd = (M.after es fd).bind K.resolve := by
    intro es
    induction es with
    | nil => exact fun L M K h => h
    | cons e es ih => exact fun L M K h => ih _ _ K (read_eq_resolve h e)
  refine hafter es L initial L (fun fd => ?_) fd
  cases hL : L fd <;> simp [initial, resolve, hL]

theorem read_cases {P : Layout → Prop} (h : P L)
    (hclose : ∀ k, e.call = .close k → P (Function.update L k none))
    (hdup2 : ∀ a k, e = ⟨.dup2 a k, .ok ()⟩ →
      P (Function.update L k ((L a).map Slot.duplicate)))
    (hopen : ∀ path mode k, e = ⟨.openFile path mode, .ok k⟩ →
      P (Function.update L k (some ⟨.opened path mode, false⟩)))
    (hpipe : ∀ a k, e = ⟨.pipe, .ok (a, k)⟩ →
      P (Function.update (Function.update L a (some ⟨.piped, false⟩)) k
        (some ⟨.piped, false⟩))) : P (L.read e) := by
  obtain ⟨c, r⟩ := e
  cases c with
  | close k => exact hclose k rfl
  | dup2 a k =>
    obtain e | ⟨⟨⟩⟩ : Except Errno Unit := r
    · exact h
    · show P (if a = k then L else _)
      split
      · exact h
      · exact hdup2 a k rfl
  | openFile path mode =>
    obtain e | k : Except Errno Fd := r
    · exact h
    · exact hopen path mode k rfl
  | pipe =>
    obtain e | ⟨a, k⟩ : Except Errno (Fd × Fd) := r
    · exact h
    · exact hpipe a k rfl
  | _ => exact h

theorem opened_of_after (h : L.after es fd = some ⟨.opened path mode, b⟩) :
    (∃ g b, L g = some ⟨.opened path mode, b⟩) ∨
      ∃ k, (⟨.openFile path mode, .ok k⟩ : Event) ∈ es := by
  have hupdate : ∀ {L : Layout} {x : Option Slot} {k fd : Fd} {b : Bool},
      Function.update L k x fd = some ⟨.opened path mode, b⟩ →
        x = some ⟨.opened path mode, b⟩ ∨ L fd = some ⟨.opened path mode, b⟩ := by
    intro L x k fd b h
    rw [Function.update_apply] at h
    split at h
    · exact .inl h
    · exact .inr h
  have hread : ∀ (L : Layout) (e : Event) {fd : Fd} {b : Bool},
      L.read e fd = some ⟨.opened path mode, b⟩ →
        (∃ g b, L g = some ⟨.opened path mode, b⟩) ∨ ∃ k, e = ⟨.openFile path mode, .ok k⟩ := by
    intro L e fd b
    refine read_cases (P := fun L' => L' fd = some ⟨.opened path mode, b⟩ → _) ?_ ?_ ?_ ?_ ?_
    · exact fun h => .inl ⟨fd, b, h⟩
    · exact fun k _ h => .inl ⟨fd, b, (hupdate h).resolve_left nofun⟩
    · intro a k _ h
      obtain ha | h := hupdate h
      · obtain ⟨⟨origin, d⟩, hx, hs⟩ := Option.map_eq_some_iff.1 ha
        obtain ⟨rfl, -⟩ := Slot.mk.inj hs
        exact .inl ⟨a, d, hx⟩
      · exact .inl ⟨fd, b, h⟩
    · intro path' mode' k he h
      obtain hk | h := hupdate h
      · cases hk
        exact .inr ⟨k, he⟩
      · exact .inl ⟨fd, b, h⟩
    · exact fun a k _ h =>
        .inl ⟨fd, b, (hupdate ((hupdate h).resolve_left nofun)).resolve_left nofun⟩
  induction es generalizing L with
  | nil => exact .inl ⟨fd, b, h⟩
  | cons e es ih =>
    obtain ⟨g, d, hg⟩ | ⟨k, hk⟩ := ih h
    · obtain h | ⟨k, rfl⟩ := hread L e hg
      · exact .inl h
      · exact .inr ⟨k, List.mem_cons_self⟩
    · exact .inr ⟨k, List.mem_cons_of_mem e hk⟩

theorem opened_of_layout (h : layout es fd = some ⟨.opened path mode, b⟩) :
    ∃ k, (⟨.openFile path mode, .ok k⟩ : Event) ∈ es := by
  obtain ⟨g, d, hg⟩ | h := opened_of_after h
  · cases hg
  · exact h

def InPlace (L : Layout) : Prop := ∀ fd g, L fd = some ⟨.inherited g, false⟩ → g = fd

theorem InPlace.update {x : Option Slot} {k : Fd} (h : L.InPlace)
    (hx : ∀ g, x = some ⟨.inherited g, false⟩ → g = k) : InPlace (Function.update L k x) := by
  intro fd g hL
  rw [Function.update_apply] at hL
  split at hL
  · rw [‹fd = k›]
    exact hx g hL
  · exact h fd g hL

theorem InPlace.read (h : L.InPlace) (e : Event) : (L.read e).InPlace := by
  refine read_cases h (fun k _ => h.update nofun) (fun a k _ => h.update fun g hg => ?_)
    (fun _ _ k _ => h.update nofun) fun a k _ => InPlace.update (h.update nofun) nofun
  obtain ⟨⟨origin, d⟩, -, hx⟩ := Option.map_eq_some_iff.1 hg
  cases hx

theorem inPlace_layout (es : List Event) : (layout es).InPlace := by
  have hafter : ∀ (es : List Event) (L : Layout), L.InPlace → (L.after es).InPlace := by
    intro es
    induction es with
    | nil => exact fun L h => h
    | cons e es ih => exact fun L h => ih _ (h.read e)
  exact hafter es initial fun fd g => eq_of_initial

end Layout

end PipeShell
