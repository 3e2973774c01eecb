import PipeShell.Token

/-! From bytes to the tokens of one line. A line ends at a newline that is neither quoted nor
escaped, or, in a finished input, at the end of the input. As long as the input is not finished, a
line that has not ended is no line yet, because what comes next may still change it: then there is
no answer. Main statement: a line that is read leaves less than there was (`line_length`). -/
namespace PipeShell.Lexer

inductive Quoting
  | bare
  | single
  | double
  deriving DecidableEq, Repr

/-- Puts `w` in front of the word that was read. After this there is a word, even an empty one. -/
def lead (w : Bytes) : Option Bytes × Bytes → Option Bytes × Bytes
  | (word, rest) => (some (w ++ word.getD []), rest)

/-- Reads on in a word, up to a delimiter outside quotes, and gives the word and the rest. The word
is missing if neither a byte nor a quote was met: a backslash and a newline together are nothing. In
a finished input an open quote counts as closed and a lone backslash outside quotes as nothing. -/
def word (finished : Bool) : Quoting → Bytes → Option (Option Bytes × Bytes)
  | _, [] => if finished then some (none, []) else none
  | .bare, c :: s =>
    if Byte.isDelimiter c then some (none, c :: s)
    else if c = Byte.backslash then
      match s with
      | [] => if finished then some (none, []) else none
      | e :: s' =>
        if e = Byte.newline then word finished .bare s'
        else (word finished .bare s').map (lead [e])
    else if c = Byte.singleQuote then (word finished .single s).map (lead [])
    else if c = Byte.doubleQuote then (word finished .double s).map (lead [])
    else (word finished .bare s).map (lead [c])
  | .single, c :: s =>
    if c = Byte.singleQuote then word finished .bare s
    else (word finished .single s).map (lead [c])
  | .double, c :: s =>
    if c = Byte.doubleQuote then word finished .bare s
    else if c = Byte.backslash then
      match s with
      | [] => if finished then some (some [Byte.backslash], []) else none
      | e :: s' =>
        if e = Byte.newline then word finished .double s'
        else if e = Byte.doubleQuote ∨ e = Byte.backslash then
          (word finished .double s').map (lead [e])
        else (word finished .double s').map (lead [Byte.backslash, e])
    else (word finished .double s).map (lead [c])

def doubled (c : UInt8) (two one : Token) : Bytes → Token × Bytes
  | [] => (one, [])
  | d :: s => if d = c then (two, s) else (one, d :: s)

def operator? (c : UInt8) (s : Bytes) : Option (Token × Bytes) :=
  if c = Byte.bar then some (doubled c (.unsupported .orIf) .pipe s)
  else if c = Byte.ampersand then
    some (doubled c (.unsupported .andIf) (.unsupported .background) s)
  else if c = Byte.greater then some (doubled c (.redirect .append) (.redirect .truncate) s)
  else none

theorem doubled_length (c : UInt8) (two one : Token) (s : Bytes) :
    (doubled c two one s).2.length ≤ s.length := by
  cases s with
  | nil => simp [doubled]
  | cons d s => simp only [doubled]; split <;> simp

theorem operator?_length {c : UInt8} {s r : Bytes} {t : Token} (h : operator? c s = some (t, r)) :
    r.length ≤ s.length := by
  have key : ∀ two one, some (doubled c two one s) = some (t, r) → r.length ≤ s.length := by
    intro two one h
    have := doubled_length c two one s
    rw [Option.some.inj h] at this
    exact this
  unfold operator? at h
  split at h
  · exact key _ _ h
  · split at h
    · exact key _ _ h
    · split at h
      · exact key _ _ h
      · cases h

theorem rest_of_map_lead {o : Option (Option Bytes × Bytes)} {v : Bytes} {w : Option Bytes}
    {r : Bytes} (h : o.map (lead v) = some (w, r)) : ∃ w', o = some (w', r) := by
  obtain ⟨⟨w', r'⟩, ho, he⟩ := Option.map_eq_some_iff.1 h
  exact ⟨w', by rw [ho, (Prod.mk.inj he).2]⟩

theorem word_length_le {f : Bool} {q : Quoting} {s r : Bytes} {w : Option Bytes}
    (h : word f q s = some (w, r)) : r.length ≤ s.length := by
  fun_induction word f q s generalizing w <;> grind [→ rest_of_map_lead]

theorem word_length_lt {f : Bool} {c : UInt8} {s r : Bytes} {w : Option Bytes}
    (hc : Byte.isDelimiter c = false) (h : word f .bare (c :: s) = some (w, r)) :
    r.length < (c :: s).length := by
  have le := @word_length_le f
  rw [List.length_cons, Nat.lt_succ_iff]
  cases s with
  | nil => unfold word at h; grind [→ rest_of_map_lead]
  | cons e s => unfold word at h; grind [→ rest_of_map_lead]

theorem operator?_eq_none {c : UInt8} {s : Bytes} :
    operator? c s = none ↔ c ≠ Byte.bar ∧ c ≠ Byte.ampersand ∧ c ≠ Byte.greater := by
  grind [operator?]

theorem dropWhile_length_le (p : UInt8 → Bool) (s : Bytes) : (s.dropWhile p).length ≤ s.length :=
  (List.dropWhile_sublist p).length_le

/-- The tokens of the line that begins with `s`, and what follows the line. Blanks separate tokens,
and a `#` where a token could begin starts a comment that lasts to the end of the line. -/
def line (finished : Bool) (s : Bytes) : Option (List Token × Bytes) :=
  match s with
  | [] => if finished then some ([], []) else none
  | c :: s =>
    if Byte.isBlank c then line finished s
    else if c = Byte.newline then some ([], s)
    else if c = Byte.hash then line finished (s.dropWhile (· != Byte.newline))
    else match _ho : operator? c s with
      | some (t, r) => (line finished r).map fun (ts, r) => (t :: ts, r)
      | none =>
        match _hw : word finished .bare (c :: s) with
        | some (some w, r) => (line finished r).map fun (ts, r) => (.word w :: ts, r)
        | some (none, r) => line finished r
        | none => none
termination_by s.length
decreasing_by
  all_goals simp_wf
  · have := dropWhile_length_le (· != Byte.newline) s; omega
  · have := operator?_length _ho; omega
  all_goals
    have ho := operator?_eq_none.1 _ho
    have := word_length_lt (by grind [Byte.isDelimiter, Byte.isBlank]) _hw
    rw [List.length_cons] at this
    omega

theorem line_length {f : Bool} {s r : Bytes} {ts : List Token} (h : line f s = some (ts, r)) :
    r.length ≤ s.length - 1 := by
  fun_induction line f s generalizing ts with
  | case1 => simp_all
  | case2 => simp_all
  | case3 c s _ ih => have := ih h; simp; omega
  | case4 => simp_all
  | case5 s _ _ ih =>
    have := ih h
    have := dropWhile_length_le (· != Byte.newline) s
    simp; omega
  | case6 c s _ _ _ t r' ho ih =>
    obtain ⟨⟨ts', r''⟩, hr, he⟩ := Option.map_eq_some_iff.1 h
    obtain ⟨-, rfl⟩ := Prod.mk.inj he
    have := ih hr
    have := operator?_length ho
    simp; omega
  | case7 c s hb hn hh ho w r' hw ih =>
    obtain ⟨⟨ts', r''⟩, hr, he⟩ := Option.map_eq_some_iff.1 h
    obtain ⟨-, rfl⟩ := Prod.mk.inj he
    have := ih hr
    have := word_length_le hw
    simp at this ⊢; omega
  | case8 c s hb hn hh ho r' hw ih =>
    have := ih h
    have := word_length_le hw
    simp at this ⊢; omega
  | case9 => simp_all

end PipeShell.Lexer
