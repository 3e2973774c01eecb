/-! Tables from numbers to values: descriptors of a process, processes of a system, files of a disk.
A table lists its entries in the order in which the numbers came in, each number once. Its view is
the function `get?`, and every operation is described by what it does to that view. -/
namespace PipeShell

structure Table (α : Type) where
  entries : List (Nat × α)
  nodup_keys : (entries.map (·.1)).Nodup

namespace Table

variable {α : Type}

theorem lookup_cons (i j : Nat) (b : α) (es : List (Nat × α)) :
    ((i, b) :: es).lookup j = if j = i then some b else es.lookup j := by
  by_cases h : j = i
  · simp [h]
  · simp [List.lookup_cons, beq_false_of_ne h, h]

theorem lookup_eq_some_iff_mem {es : List (Nat × α)} (h : (es.map (·.1)).Nodup) (k : Nat) (a : α) :
    es.lookup k = some a ↔ (k, a) ∈ es := by
  induction es with
  | nil => simp
  | cons e es ih =>
    obtain ⟨i, b⟩ := e
    rw [List.map_cons, List.nodup_cons] at h
    rw [lookup_cons, List.mem_cons, Prod.mk.injEq]
    by_cases hk : k = i
    · subst hk
      have : (k, a) ∉ es := fun hm => h.1 (List.mem_map.2 ⟨(k, a), hm, rfl⟩)
      simp [this, eq_comm]
    · simp [hk, ih h.2]

def setEntry (k : Nat) (a : α) : List (Nat × α) → List (Nat × α)
  | [] => [(k, a)]
  | (j, b) :: es => if k = j then (k, a) :: es else (j, b) :: setEntry k a es

theorem mem_keys_setEntry (k j : Nat) (a : α) (es : List (Nat × α)) :
    j ∈ (setEntry k a es).map (·.1) ↔ j = k ∨ j ∈ es.map (·.1) := by
  induction es with
  | nil => simp [setEntry]
  | cons e es ih =>
    obtain ⟨i, b⟩ := e
    by_cases h : k = i
    · subst h; simp [setEntry]
    · simp only [setEntry, if_neg h, List.map_cons, List.mem_cons, ih]
      grind

theorem nodup_keys_setEntry (k : Nat) (a : α) {es : List (Nat × α)} (h : (es.map (·.1)).Nodup) :
    ((setEntry k a es).map (·.1)).Nodup := by
  induction es with
  | nil => simp [setEntry]
  | cons e es ih =>
    obtain ⟨i, b⟩ := e
    rw [List.map_cons, List.nodup_cons] at h
    by_cases hk : k = i
    · subst hk; simpa [setEntry] using h
    · rw [setEntry, if_neg hk, List.map_cons, List.nodup_cons, mem_keys_setEntry]
      exact ⟨fun hm => hm.elim (fun e => hk e.symm) h.1, ih h.2⟩

theorem lookup_setEntry (k j : Nat) (a : α) (es : List (Nat × α)) :
    (setEntry k a es).lookup j = if j = k then some a else es.lookup j := by
  induction es with
  | nil => simp [setEntry, lookup_cons]
  | cons e es ih =>
    obtain ⟨i, b⟩ := e
    by_cases hi : k = i
    · subst hi
      by_cases h : j = k <;> simp [setEntry, lookup_cons, h]
    · by_cases h : j = i
      · subst h
        simp [setEntry, hi, Ne.symm hi]
      · simp [setEntry, lookup_cons, hi, h, ih]

theorem nodup_keys_filter (p : Nat × α → Bool) {es : List (Nat × α)} (h : (es.map (·.1)).Nodup) :
    ((es.filter p).map (·.1)).Nodup :=
  h.sublist (List.filter_sublist.map _)

def empty : Table α := ⟨[], .nil⟩

def get? (t : Table α) (k : Nat) : Option α := t.entries.lookup k

def keys (t : Table α) : List Nat := t.entries.map (·.1)

def contains (t : Table α) (k : Nat) : Bool := (t.get? k).isSome

def set (t : Table α) (k : Nat) (a : α) : Table α :=
  ⟨setEntry k a t.entries, nodup_keys_setEntry k a t.nodup_keys⟩

def erase (t : Table α) (k : Nat) : Table α :=
  ⟨t.entries.filter (·.1 != k), nodup_keys_filter _ t.nodup_keys⟩

def filter (t : Table α) (p : α → Bool) : Table α :=
  ⟨t.entries.filter fun e => p e.2, nodup_keys_filter _ t.nodup_keys⟩

def any (t : Table α) (p : α → Bool) : Bool := t.entries.any fun e => p e.2

def lowestFree (t : Table α) : Nat :=
  ((List.range (t.entries.length + 1)).find? fun k => !t.keys.contains k).getD 0

/-- A number above all that have a value. -/
def above (t : Table α) : Nat := t.keys.foldl (fun m k => max m (k + 1)) 0

theorem get?_eq_some_iff (t : Table α) (k : Nat) (a : α) :
    t.get? k = some a ↔ (k, a) ∈ t.entries := lookup_eq_some_iff_mem t.nodup_keys k a

theorem get?_eq_none_iff (t : Table α) (k : Nat) : t.get? k = none ↔ k ∉ t.keys := by
  constructor
  · intro h hk
    obtain ⟨⟨_, a⟩, hm, rfl⟩ := List.mem_map.1 hk
    simp [(get?_eq_some_iff t _ a).2 hm] at h
  · intro h
    refine Option.eq_none_iff_forall_ne_some.2 fun a ha => h ?_
    exact List.mem_map.2 ⟨(k, a), (get?_eq_some_iff t k a).1 ha, rfl⟩

@[simp] theorem get?_set (t : Table α) (k j : Nat) (a : α) :
    (t.set k a).get? j = if j = k then some a else t.get? j := lookup_setEntry k j a t.entries

@[simp] theorem get?_erase (t : Table α) (k j : Nat) :
    (t.erase k).get? j = if j = k then none else t.get? j := by
  refine Option.ext fun a => ?_
  by_cases h : j = k <;> simp [get?_eq_some_iff, erase, h]

@[simp] theorem get?_filter (t : Table α) (p : α → Bool) (k : Nat) :
    (t.filter p).get? k = (t.get? k).filter p := by
  refine Option.ext fun a => ?_
  rw [Option.filter_eq_some_iff]
  simp [get?_eq_some_iff, filter]

theorem any_eq_true_iff (t : Table α) (p : α → Bool) :
    t.any p ↔ ∃ k a, t.get? k = some a ∧ p a := by
  simp [any, get?_eq_some_iff]

theorem lowestFree_eq (t : Table α) :
    (List.range (t.entries.length + 1)).find? (fun k => !t.keys.contains k) =
      some t.lowestFree := by
  have h : ((List.range (t.entries.length + 1)).find? fun k => !t.keys.contains k).isSome := by
    rw [List.find?_isSome]
    refine Decidable.byContradiction fun h => ?_
    have hsub : List.range (t.entries.length + 1) ⊆ t.keys := fun k hk =>
      Decidable.byContradiction fun hn => h ⟨k, hk, by simpa using hn⟩
    have := List.nodup_range.length_le_of_subset hsub
    rw [List.length_range, keys, List.length_map] at this
    omega
  obtain ⟨k, hk⟩ := Option.isSome_iff_exists.1 h
  rw [lowestFree, hk, Option.getD_some]

theorem get?_lowestFree (t : Table α) : t.get? t.lowestFree = none := by
  have := List.find?_some t.lowestFree_eq
  rw [get?_eq_none_iff]
  simpa using this

theorem le_foldl_above (ks : List Nat) (n : Nat) :
    n ≤ ks.foldl (fun m k => max m (k + 1)) n ∧
      ∀ k ∈ ks, k < ks.foldl (fun m k => max m (k + 1)) n := by
  induction ks generalizing n with
  | nil => simp
  | cons j ks ih =>
    obtain ⟨h₁, h₂⟩ := ih (max n (j + 1))
    refine ⟨by simp only [List.foldl_cons]; omega, fun k hk => ?_⟩
    rcases List.mem_cons.1 hk with rfl | hk
    · simp only [List.foldl_cons]; omega
    · exact h₂ k hk

theorem get?_eq_none_of_above_le {t : Table α} {k : Nat} (h : t.above ≤ k) : t.get? k = none := by
  rw [get?_eq_none_iff]
  intro hk
  have := (le_foldl_above t.keys 0).2 k hk
  unfold above at h
  omega

end Table

end PipeShell
