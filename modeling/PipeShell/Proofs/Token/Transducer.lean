import PipeShell.Token.Lexer

/-! A transducer that reads a line once, byte by byte, and never looks ahead. What a byte means is a
table over the mode the scan stands in (`Mode.read`), and the tokens are put together from what the
table says. Main statement: it reads the same tokens as the lexer and leaves the same rest
(`Lexer.line_eq_scan`). So a line that is complete does not depend on what follows it
(`Lexer.line_append`). -/
namespace PipeShell

inductive Mode
  | gap
  | word
  | escape
  | single
  | double
  | doubleEscape
  | comment
  deriving DecidableEq, Repr

/-- What a byte does to the tokens: nothing; it parts what is before it from what is after it; it
adds bytes to a word, or opens one by adding no byte; it is an operator sign. -/
inductive Action
  | skip
  | part
  | add (v : Bytes)
  | sign (c : UInt8)
  deriving DecidableEq, Repr

namespace Mode

def enter (c : UInt8) : Mode × Action :=
  if c = Byte.singleQuote then (single, .add [])
  else if c = Byte.doubleQuote then (double, .add [])
  else (word, .add [c])

def isSign (c : UInt8) : Bool := c == Byte.bar || c == Byte.ampersand || c == Byte.greater

def read : Mode → UInt8 → Mode × Action
  | gap, c =>
    if Byte.isBlank c then (gap, .part)
    else if isSign c then (gap, .sign c)
    else if c = Byte.hash then (comment, .part)
    else if c = Byte.backslash then (escape, .part)
    else enter c
  | word, c =>
    if Byte.isBlank c then (gap, .part)
    else if isSign c then (gap, .sign c)
    else if c = Byte.backslash then (escape, .skip)
    else enter c
  | escape, c => (word, if c = Byte.newline then .skip else .add [c])
  | single, c => if c = Byte.singleQuote then (word, .skip) else (single, .add [c])
  | double, c =>
    if c = Byte.doubleQuote then (word, .skip)
    else if c = Byte.backslash then (doubleEscape, .skip)
    else (double, .add [c])
  | doubleEscape, c =>
    (double, if c = Byte.newline then .skip
      else if c = Byte.doubleQuote ∨ c = Byte.backslash then .add [c]
      else .add [Byte.backslash, c])
  | comment, _ => (comment, .skip)

def endsAt (m : Mode) (c : UInt8) : Bool :=
  match m with
  | gap | word | comment => c == Byte.newline
  | escape | single | double | doubleEscape => false

end Mode

namespace Token

def ofSign (c : UInt8) : Token :=
  if c = Byte.bar then .pipe
  else if c = Byte.ampersand then .unsupported .background
  else .redirect .truncate

def double? (c : UInt8) : Token → Option Token
  | .pipe => if c = Byte.bar then some (.unsupported .orIf) else none
  | .unsupported .background => if c = Byte.ampersand then some (.unsupported .andIf) else none
  | .redirect .truncate => if c = Byte.greater then some (.redirect .append) else none
  | _ => none

end Token

/-- A line that is being scanned: the tokens that are complete, and the one that the next byte may
still change. -/
structure Scan where
  mode : Mode
  tokens : List Token
  current : Option Token
  deriving DecidableEq, Repr

namespace Scan

def start : Scan := ⟨.gap, [], none⟩

def settled (σ : Scan) : List Token := σ.tokens ++ σ.current.toList

def add (σ : Scan) (v : Bytes) : Scan :=
  match σ.current with
  | some (.word w) => { σ with current := some (.word (w ++ v)) }
  | _ => { σ with tokens := σ.settled, current := some (.word v) }

def perform (σ : Scan) : Action → Scan
  | .skip => σ
  | .part => { σ with tokens := σ.settled, current := none }
  | .add v => σ.add v
  | .sign c =>
    match σ.current.bind (Token.double? c) with
    | some t => { σ with current := some t }
    | none => { σ with tokens := σ.settled, current := some (Token.ofSign c) }

def step (σ : Scan) (c : UInt8) : Scan :=
  { σ.perform (σ.mode.read c).2 with mode := (σ.mode.read c).1 }

/-- The tokens of a line that the end of the input ends. Open quotes count as closed; a backslash
that waits for a byte is kept within quotes and dropped outside them. -/
def closed (σ : Scan) : List Token :=
  if σ.mode = .doubleEscape then (σ.add [Byte.backslash]).settled else σ.settled

def line (finished : Bool) : Scan → Bytes → Option (List Token × Bytes)
  | σ, [] => if finished then some (σ.closed, []) else none
  | σ, c :: s => if σ.mode.endsAt c then some (σ.settled, s) else line finished (σ.step c) s

end Scan

namespace Lexer

def Quoting.mode : Quoting → Mode
  | bare => .word
  | single => .single
  | double => .double

end Lexer

theorem Mode.isDelimiter_eq (c : UInt8) :
    Byte.isDelimiter c = (Byte.isBlank c || isSign c || c == Byte.newline) := by
  grind [Byte.isDelimiter, Byte.isBlank, isSign]

namespace Scan
variable {f : Bool} {m n : Mode} {c : UInt8} {v s : Bytes} {ts : List Token}

theorem line_skip {t : Option Token} (he : m.endsAt c = false) (h : m.read c = (n, .skip)) :
    line f ⟨m, ts, t⟩ (c :: s) = line f ⟨n, ts, t⟩ s := by
  simp [line, he, step, h, perform]

theorem line_part {t : Option Token} (he : m.endsAt c = false) (h : m.read c = (n, .part)) :
    line f ⟨m, ts, t⟩ (c :: s) = line f ⟨n, ts ++ t.toList, none⟩ s := by
  simp [line, he, step, h, perform, settled]

theorem add_word (acc : Option Bytes) :
    add ⟨m, ts, acc.map .word⟩ v = ⟨m, ts, some (.word (acc.getD [] ++ v))⟩ := by
  cases acc <;> simp [add, settled]

theorem line_add {acc : Option Bytes} (he : m.endsAt c = false) (h : m.read c = (n, .add v)) :
    line f ⟨m, ts, acc.map .word⟩ (c :: s) =
      line f ⟨n, ts, (some (acc.getD [] ++ v)).map .word⟩ s := by
  simp [line, he, step, h, perform, add_word]

/-- Scanning on after a word, of which `acc` was read before the lexer set in. -/
def resume (f : Bool) (ts : List Token) (acc : Option Bytes) (x : Option Bytes × Bytes) :
    Option (List Token × Bytes) :=
  line f ⟨.gap, ts ++ ((acc.merge (· ++ ·) x.1).map Token.word).toList, none⟩ x.2

theorem bind_lead (acc : Option Bytes) (o : Option (Option Bytes × Bytes)) :
    (o.map (Lexer.lead v)).bind (resume f ts acc) =
      o.bind (resume f ts (some (acc.getD [] ++ v))) := by
  cases o with
  | none => rfl
  | some x =>
    obtain ⟨w, r⟩ := x
    cases acc <;> cases w <;> simp [resume, Lexer.lead, Option.merge]

theorem line_sign {t : Option Token} (hs : Mode.isSign c = true) (hm : m = .gap ∨ m = .word)
    (ht : t.bind (Token.double? c) = none) :
    line f ⟨m, ts, t⟩ (c :: s) = line f ⟨.gap, ts ++ t.toList, some (Token.ofSign c)⟩ s := by
  have hn : c ≠ Byte.newline := by
    intro hc
    rw [hc] at hs
    revert hs
    decide
  have hb : Byte.isBlank c = false := by
    grind [Mode.isSign, Byte.isBlank]
  obtain rfl | rfl := hm <;>
    simp [line, Mode.endsAt, hn, step, Mode.read, hb, hs, perform, ht, settled]

theorem double?_word (w : Option Bytes) : (w.map Token.word).bind (Token.double? c) = none := by
  cases w <;> rfl

theorem line_word_at_delimiter {w : Option Bytes} (hc : Byte.isDelimiter c = true) :
    line f ⟨.word, ts, w.map .word⟩ (c :: s) =
      line f ⟨.gap, ts ++ (w.map Token.word).toList, none⟩ (c :: s) := by
  by_cases hn : c = Byte.newline
  · simp [line, Mode.endsAt, hn, settled]
  have he : Mode.endsAt .word c = false ∧ Mode.endsAt .gap c = false := by simp [Mode.endsAt, hn]
  by_cases hb : Byte.isBlank c = true
  · rw [line_part he.1 (n := .gap) (by simp [Mode.read, hb]),
      line_part he.2 (n := .gap) (by simp [Mode.read, hb])]
    simp
  · have hs : Mode.isSign c = true := by simpa [Mode.isDelimiter_eq, hb, hn] using hc
    rw [line_sign hs (.inr rfl) (double?_word w), line_sign hs (.inl rfl) rfl]
    simp

theorem read_word_plain (hd : ¬Byte.isDelimiter c = true) (hb : c ≠ Byte.backslash)
    (hs : c ≠ Byte.singleQuote) (hq : c ≠ Byte.doubleQuote) :
    Mode.read .word c = (.word, .add [c]) := by
  simp only [Mode.isDelimiter_eq, Bool.or_eq_true, not_or] at hd
  simp [Mode.read, Mode.enter, hd, hb, hs, hq]

theorem line_word (f : Bool) (q : Lexer.Quoting) (s : Bytes) (ts : List Token)
    (acc : Option Bytes) :
    line f ⟨q.mode, ts, acc.map .word⟩ s = (Lexer.word f q s).bind (resume f ts acc) := by
  -- one case a branch of the lexer; a byte read is one step of the scan, an escape is two
  fun_induction Lexer.word f q s generalizing acc with
  | case1 q hf =>
    cases q <;> cases acc <;>
      simp [line, hf, closed, settled, resume, Lexer.Quoting.mode, Option.merge]
  | case2 q hf => simp [line, hf]
  | case3 c s hc =>
    rw [Lexer.Quoting.mode, line_word_at_delimiter hc]
    cases acc <;> simp [resume, Option.merge]
  | case4 hf =>
    rw [Lexer.Quoting.mode, line_skip rfl (n := .escape) rfl]
    cases acc <;> simp [line, hf, closed, settled, resume, Option.merge]
  | case5 hf =>
    rw [Lexer.Quoting.mode, line_skip rfl (n := .escape) rfl]
    simp [line, hf]
  | case6 s _ ih =>
    rw [Lexer.Quoting.mode, line_skip rfl (n := .escape) rfl, line_skip rfl (n := .word) rfl]
    exact ih acc
  | case7 e s he _ ih =>
    rw [bind_lead, ← ih, Lexer.Quoting.mode, line_skip rfl (n := .escape) rfl]
    exact line_add rfl (by simp [Mode.read, he])
  | case8 s _ _ ih =>
    rw [bind_lead, ← ih]
    exact line_add rfl rfl
  | case9 s _ _ _ ih =>
    rw [bind_lead, ← ih]
    exact line_add rfl rfl
  | case10 c s hd hb hs hq ih =>
    rw [bind_lead, ← ih]
    refine line_add ?_ (read_word_plain hd hb hs hq)
    grind [Mode.endsAt, Byte.isDelimiter, Lexer.Quoting.mode]
  | case11 s ih => exact (line_skip rfl rfl).trans (ih acc)
  | case12 c s hc ih =>
    rw [bind_lead, ← ih]
    exact line_add rfl (by simp [Lexer.Quoting.mode, Mode.read, hc])
  | case13 s ih => exact (line_skip rfl rfl).trans (ih acc)
  | case14 hf =>
    rw [Lexer.Quoting.mode, line_skip rfl (n := .doubleEscape) rfl]
    cases acc <;> simp [line, hf, closed, add, settled, resume, Option.merge]
  | case15 hf =>
    rw [Lexer.Quoting.mode, line_skip rfl (n := .doubleEscape) rfl]
    simp [line, hf]
  | case16 s _ ih =>
    rw [Lexer.Quoting.mode, line_skip rfl (n := .doubleEscape) rfl,
      line_skip rfl (n := .double) rfl]
    exact ih acc
  | case17 e s he hq _ ih =>
    rw [bind_lead, ← ih, Lexer.Quoting.mode, line_skip rfl (n := .doubleEscape) rfl]
    exact line_add rfl (by simp [Mode.read, he, hq])
  | case18 e s he hq _ ih =>
    rw [bind_lead, ← ih, Lexer.Quoting.mode, line_skip rfl (n := .doubleEscape) rfl]
    exact line_add rfl (by simp [Mode.read, he, hq])
  | case19 c s hq hb ih =>
    rw [bind_lead, ← ih]
    exact line_add rfl (by simp [Lexer.Quoting.mode, Mode.read, hq, hb])

theorem line_comment (f : Bool) (ts : List Token) (s : Bytes) :
    line f ⟨.comment, ts, none⟩ s =
      line f ⟨.gap, ts, none⟩ (s.dropWhile (· != Byte.newline)) := by
  induction s with
  | nil => simp [line, closed, settled]
  | cons c s ih =>
    by_cases hn : c = Byte.newline
    · subst hn
      simp [line, Mode.endsAt, settled]
    · have he : Mode.endsAt .comment c = false := by simp [Mode.endsAt, hn]
      rw [line_skip he rfl, ih, List.dropWhile_cons_of_pos (by simpa using hn)]

theorem read_gap_of_not_sign (hc : Mode.isSign c = false) :
    (Mode.read .gap c).2 = .part ∨ ∃ v, (Mode.read .gap c).2 = .add v := by
  grind [Mode.read, Mode.enter]

theorem line_undoubled {t : Token} (ht : ∀ w, t ≠ .word w) {s : Bytes}
    (hs : ∀ c ∈ s.head?, Token.double? c t = none) :
    line f ⟨.gap, ts, some t⟩ s = line f ⟨.gap, ts ++ [t], none⟩ s := by
  cases s with
  | nil => simp [line, closed, settled]
  | cons c s =>
    by_cases hn : c = Byte.newline
    · simp [line, Mode.endsAt, hn, settled]
    have he : Mode.endsAt .gap c = false := by simp [Mode.endsAt, hn]
    cases hc : Mode.isSign c with
    | true =>
      rw [line_sign hc (.inl rfl) (by simpa using hs c rfl), line_sign hc (.inl rfl) rfl]
      simp
    | false =>
      obtain ha | ⟨v, ha⟩ := read_gap_of_not_sign hc
      · simp [line, he, step, ha, perform, settled]
      · cases t with
        | word w => exact absurd rfl (ht w)
        | _ => simp [line, he, step, ha, perform, add, settled]

theorem operator?_eq_some {t : Token} {r : Bytes} (h : Lexer.operator? c s = some (t, r)) :
    Mode.isSign c = true ∧ ∃ two, Token.double? c (Token.ofSign c) = some two ∧
      Lexer.doubled c two (Token.ofSign c) s = (t, r) := by
  unfold Lexer.operator? at h
  split at h
  · subst c; exact ⟨rfl, _, rfl, Option.some.inj h⟩
  · split at h
    · subst c; exact ⟨rfl, _, rfl, Option.some.inj h⟩
    · split at h
      · subst c; exact ⟨rfl, _, rfl, Option.some.inj h⟩
      · cases h

theorem ofSign_ne_word (c : UInt8) (w : Bytes) : Token.ofSign c ≠ .word w := by
  grind [Token.ofSign]

theorem double?_eq_some {t two : Token} (h : Token.double? c t = some two) :
    (∀ w, two ≠ .word w) ∧ ∀ d, Token.double? d two = none := by
  have key : two = .unsupported .orIf ∨ two = .unsupported .andIf ∨ two = .redirect .append := by
    unfold Token.double? at h
    split at h <;> grind
  obtain rfl | rfl | rfl := key <;> exact ⟨by simp, fun _ => rfl⟩

theorem double?_ofSign {d : UInt8} (hc : Mode.isSign c = true) (hd : d ≠ c) :
    Token.double? d (Token.ofSign c) = none := by
  grind [Token.double?, Token.ofSign, Mode.isSign]

theorem line_operator {t : Token} {r : Bytes} (h : Lexer.operator? c s = some (t, r)) :
    line f ⟨.gap, ts, none⟩ (c :: s) = line f ⟨.gap, ts ++ [t], none⟩ r := by
  obtain ⟨hc, two, h2, hd⟩ := operator?_eq_some h
  rw [line_sign hc (.inl rfl) rfl, Option.toList_none, List.append_nil]
  cases s with
  | nil =>
    obtain ⟨rfl, rfl⟩ := Prod.mk.inj hd
    exact line_undoubled (ofSign_ne_word c) (by simp)
  | cons d s =>
    rw [Lexer.doubled] at hd
    split at hd
    · subst d
      obtain ⟨rfl, rfl⟩ := Prod.mk.inj hd
      have hn : Mode.endsAt .gap c = false := by grind [Mode.isSign, Mode.endsAt]
      have hb : Byte.isBlank c = false := by grind [Mode.isSign, Byte.isBlank]
      rw [← line_undoubled (double?_eq_some h2).1 fun d _ => (double?_eq_some h2).2 d]
      simp [line, hn, step, Mode.read, hb, hc, perform, h2]
    · rename_i hne
      obtain ⟨rfl, rfl⟩ := Prod.mk.inj hd
      exact line_undoubled (ofSign_ne_word c) (by simpa using double?_ofSign hc hne)

theorem line_gap_eq_word (hd : Byte.isDelimiter c = false) (hh : c ≠ Byte.hash) :
    line f ⟨.gap, ts, none⟩ (c :: s) = line f ⟨.word, ts, none⟩ (c :: s) := by
  simp only [Mode.isDelimiter_eq, Bool.or_eq_false_iff] at hd
  obtain ⟨⟨hb, hs⟩, hn⟩ := hd
  have he : Mode.endsAt .gap c = false ∧ Mode.endsAt .word c = false := ⟨hn, hn⟩
  by_cases hc : c = Byte.backslash
  · subst hc
    rw [line_part rfl (n := .escape) rfl, line_skip rfl (n := .escape) rfl]
    simp
  · have hr : Mode.read .gap c = Mode.read .word c := by simp [Mode.read, hb, hs, hh, hc]
    have ha : ∃ v, (Mode.read .word c).2 = .add v := by grind [Mode.read, Mode.enter]
    obtain ⟨v, ha⟩ := ha
    simp [line, he, step, hr, ha, perform, add, settled]

theorem line_bare (f : Bool) (s : Bytes) (ts : List Token) :
    line f ⟨.word, ts, none⟩ s = (Lexer.word f .bare s).bind (resume f ts none) :=
  line_word f .bare s ts none

theorem isDelimiter_of_operator?_eq_none (hb : ¬Byte.isBlank c = true) (hn : c ≠ Byte.newline)
    (ho : Lexer.operator? c s = none) : Byte.isDelimiter c = false := by
  have hs := Lexer.operator?_eq_none.1 ho
  grind [Byte.isDelimiter, Byte.isBlank]

/-- The transducer and the lexer read the same line, and the same follows it. -/
theorem line_gap (f : Bool) (s : Bytes) (ts : List Token) :
    line f ⟨.gap, ts, none⟩ s = (Lexer.line f s).map fun x => (ts ++ x.1, x.2) := by
  fun_induction Lexer.line f s generalizing ts with
  | case1 hf => simp [line, hf, closed, settled]
  | case2 hf => simp [line, hf]
  | case3 c s hb ih =>
    have he : Mode.endsAt .gap c = false := by grind [Mode.endsAt, Byte.isBlank]
    rw [line_part he (n := .gap) (by simp [Mode.read, hb])]
    simpa using ih ts
  | case4 s => simp [line, Mode.endsAt, settled]
  | case5 s _ _ ih =>
    rw [line_part rfl (n := .comment) rfl, line_comment]
    simpa using ih ts
  | case6 c s _ _ _ t r' ho ih =>
    rw [line_operator ho, ih]
    simp [Function.comp_def]
  | case7 c s hb hn hh ho w r' hw ih =>
    have hd := isDelimiter_of_operator?_eq_none hb hn ho
    rw [line_gap_eq_word hd hh, line_bare, hw, Option.bind_some, resume]
    simp [ih, Function.comp_def, Option.merge]
  | case8 c s hb hn hh ho r' hw ih =>
    have hd := isDelimiter_of_operator?_eq_none hb hn ho
    rw [line_gap_eq_word hd hh, line_bare, hw, Option.bind_some, resume]
    simp [ih, Option.merge]
  | case9 c s hb hn hh ho hw =>
    have hd := isDelimiter_of_operator?_eq_none hb hn ho
    rw [line_gap_eq_word hd hh, line_bare, hw]
    rfl

theorem line_append {σ : Scan} {r : Bytes} (h : line false σ s = some (ts, r)) (f : Bool)
    (t : Bytes) : line f σ (s ++ t) = some (ts, r ++ t) := by
  induction s generalizing σ with
  | nil => simp [line] at h
  | cons c s ih =>
    rw [List.cons_append, line]
    rw [line] at h
    split at h
    · rename_i he
      obtain ⟨rfl, rfl⟩ := Prod.mk.inj (Option.some.inj h)
      simp [he]
    · rename_i he
      simpa [he] using ih h

end Scan

namespace Lexer

theorem line_eq_scan (f : Bool) (s : Bytes) : line f s = Scan.start.line f s := by
  rw [Scan.start, Scan.line_gap]
  simp

theorem line_append {s r : Bytes} {ts : List Token} (h : line false s = some (ts, r)) (f : Bool)
    (t : Bytes) : line f (s ++ t) = some (ts, r ++ t) := by
  rw [line_eq_scan] at h ⊢
  exact Scan.line_append h f t

theorem line_length_lt {s r : Bytes} {ts : List Token} (h : line false s = some (ts, r)) :
    r.length < s.length := by
  have hle := line_length h
  cases s with
  | nil => simp [line] at h
  | cons c s => simp only [List.length_cons] at hle ⊢; omega

end Lexer

end PipeShell
