/-! Byte strings, and the bytes that mean something to the shell. Everything the shell reads, names
and passes on is a list of bytes: no encoding is ever assumed. -/
namespace PipeShell

abbrev Bytes := List UInt8

def Bytes.ofAscii (s : String) : Bytes := s.toList.map fun c => c.toNat.toUInt8

namespace Byte

abbrev nul : UInt8 := 0
abbrev tab : UInt8 := 9
abbrev newline : UInt8 := 10
abbrev space : UInt8 := 32
abbrev doubleQuote : UInt8 := 34
abbrev hash : UInt8 := 35
abbrev ampersand : UInt8 := 38
abbrev singleQuote : UInt8 := 39
abbrev plus : UInt8 := 43
abbrev minus : UInt8 := 45
abbrev slash : UInt8 := 47
abbrev zero : UInt8 := 48
abbrev colon : UInt8 := 58
abbrev greater : UInt8 := 62
abbrev backslash : UInt8 := 92
abbrev bar : UInt8 := 124

def isBlank (c : UInt8) : Bool := c == space || c == tab

def isDelimiter (c : UInt8) : Bool :=
  c == space || c == tab || c == newline || c == bar || c == greater || c == ampersand

/-- White space in front of a number: the blanks, newline, carriage return, vertical tab and form
feed. -/
def isSpace (c : UInt8) : Bool := c == space || (tab ≤ c && c ≤ 13)

def isDigit (c : UInt8) : Bool := zero ≤ c && c ≤ 57

end Byte

namespace Bytes

/-- The pieces of `s` between the separators: one more than there are separators. -/
def splitOn (sep : UInt8) : Bytes → List Bytes
  | [] => [[]]
  | c :: s =>
    if c = sep then [] :: splitOn sep s
    else match splitOn sep s with
      | [] => [[c]]
      | p :: ps => (c :: p) :: ps

theorem splitOn_ne_nil (sep : UInt8) (s : Bytes) : splitOn sep s ≠ [] := by
  cases s with
  | nil => simp [splitOn]
  | cons c s =>
    rw [splitOn]
    split
    · simp
    · split <;> simp

theorem splitOn_append (sep : UInt8) (s t : Bytes) :
    splitOn sep (s ++ sep :: t) = splitOn sep s ++ splitOn sep t := by
  induction s with
  | nil => simp [splitOn]
  | cons c s ih =>
    rw [List.cons_append, splitOn, splitOn, ih]
    split
    · rfl
    · cases hs : splitOn sep s with
      | nil => exact absurd hs (splitOn_ne_nil sep s)
      | cons p ps => rfl

theorem sublist_of_mem_splitOn {sep : UInt8} {s p : Bytes} (hp : p ∈ splitOn sep s) :
    p.Sublist s := by
  induction s generalizing p with
  | nil =>
    obtain rfl := List.mem_singleton.1 hp
    exact .refl _
  | cons c s ih =>
    rw [splitOn] at hp
    split at hp
    · obtain rfl | hp := List.mem_cons.1 hp
      · exact List.nil_sublist _
      · exact (ih hp).cons c
    · split at hp
      · obtain rfl := List.mem_singleton.1 hp
        exact List.singleton_sublist.2 List.mem_cons_self
      next q qs hs =>
        rw [hs] at ih
        obtain rfl | hp := List.mem_cons.1 hp
        · exact (ih List.mem_cons_self).cons_cons c
        · exact (ih (List.mem_cons_of_mem q hp)).cons c

def ofNat (n : Nat) : Bytes := (Nat.toDigits 10 n).map fun c => c.toNat.toUInt8

def leadingNat (s : Bytes) : Nat :=
  (s.takeWhile Byte.isDigit).foldl (fun n c => n * 10 + (c - Byte.zero).toNat) 0

def toNat? (s : Bytes) : Option Nat :=
  if s ≠ [] ∧ s.all Byte.isDigit then some s.leadingNat else none

def le : Bytes → Bytes → Bool
  | [], _ => true
  | _ :: _, [] => false
  | a :: s, b :: t => if a = b then le s t else a < b

end Bytes

end PipeShell
