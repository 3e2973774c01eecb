import Mathlib.Logic.Function.Iterate
import Mathlib.Logic.Relation
import PipeShell.Proofs.Parser.Popping
import PipeShell.Proofs.Token.Transducer

/-! Popping as a position that moves through the buffer. In the lexer bytes are taken off a list,
and nothing can go wrong; here the buffer stays as it is until a line is dropped, and two things
can: a byte is read where there is none, or more is dropped than there is. The position moves by no
more bytes than were seen just before, and it keeps moving because a word is entered only at a byte
that is no delimiter: a word without bytes, which gives no token, has then moved nevertheless. Main
statement: popping comes to an end after at most five steps a byte, without a fault, with what `pop`
gives (`iterate_next_enter`). -/
namespace PipeShell

structure Parser.DropsLine (p q : Parser) : Prop where
  ne_nil : p.buffer ≠ []
  line : ∃ ts, Lexer.line p.finished p.buffer = some (ts, q.buffer)
  finished : q.finished = p.finished

/-- What is being read at the position. -/
inductive Cursor.Task
  | gap
  | comment
  /-- a word; there is none yet if neither a byte nor a quote was met -/
  | word (w : Option Bytes)
  /-- a quote that opens quotes -/
  | opening (w : Option Bytes)
  | quoted (quote : UInt8) (w : Bytes)
  deriving DecidableEq, Repr

structure Cursor where
  parser : Parser
  position : Nat
  /-- the tokens of the line so far -/
  tokens : List Token
  task : Cursor.Task
  deriving DecidableEq, Repr

inductive Cursor.Move
  | goes (σ : Cursor)
  | gives (x : Option (Except ParseError CommandLine)) (p : Parser)
  | faults

namespace Cursor

def peek (σ : Cursor) (n : Nat) : Option UInt8 := σ.parser.buffer[σ.position + n]?

def go (σ : Cursor) (n : Nat) (t : Task) : Move :=
  .goes { σ with position := σ.position + n, task := t }

def put (σ : Cursor) (n : Nat) (ts : List Token) : Move :=
  .goes ⟨σ.parser, σ.position + n, σ.tokens ++ ts, .gap⟩

def atEnd (σ : Cursor) (m : Move) : Move :=
  if σ.parser.finished then m else .gives none σ.parser

def enter (p : Parser) : Move :=
  if p.buffer = [] then .gives none p else .goes ⟨p, 0, [], .gap⟩

def drop (σ : Cursor) (n : Nat) : Move :=
  if n ≤ σ.parser.buffer.length then
    let p := { σ.parser with buffer := σ.parser.buffer.drop n }
    match CommandLine.outcome? σ.tokens with
    | some x => .gives (some x) p
    | none => enter p
  else .faults

def signs? (c : UInt8) : Option (Token × Token) :=
  if c = Byte.bar then some (.unsupported .orIf, .pipe)
  else if c = Byte.ampersand then some (.unsupported .andIf, .unsupported .background)
  else if c = Byte.greater then some (.redirect .append, .redirect .truncate)
  else none

def inGap (σ : Cursor) : Move :=
  match σ.peek 0 with
  | none => σ.atEnd (σ.drop σ.position)
  | some c =>
    if Byte.isBlank c then σ.go 1 .gap
    else if c = Byte.newline then σ.drop (σ.position + 1)
    else if c = Byte.hash then σ.go 0 .comment
    else match signs? c with
      | some (two, one) => if σ.peek 1 = some c then σ.put 2 [two] else σ.put 1 [one]
      | none => σ.go 0 (.word none)

def inComment (σ : Cursor) : Move :=
  match σ.peek 0 with
  | none => σ.go 0 .gap
  | some c => if c = Byte.newline then σ.go 0 .gap else σ.go 1 .comment

def escape (σ : Cursor) (w : Option Bytes) : Move :=
  match σ.peek 1 with
  | none => σ.atEnd (σ.go 1 (.word w))
  | some e =>
    if e = Byte.newline then σ.go 2 (.word w) else σ.go 2 (.word (some (w.getD [] ++ [e])))

def inWord (σ : Cursor) (w : Option Bytes) : Move :=
  match σ.peek 0 with
  | none =>
    if w = none then σ.atEnd (σ.go 0 .gap) else σ.put 0 (w.map Token.word).toList
  | some c =>
    if Byte.isDelimiter c then σ.put 0 (w.map Token.word).toList
    else if c = Byte.backslash then σ.escape w
    else if c = Byte.singleQuote ∨ c = Byte.doubleQuote then σ.go 0 (.opening w)
    else σ.go 1 (.word (some (w.getD [] ++ [c])))

def atQuote (σ : Cursor) (w : Option Bytes) : Move :=
  match σ.peek 0 with
  | none => .faults
  | some quote => σ.go 1 (.quoted quote (w.getD []))

def escapeQuoted (σ : Cursor) (w : Bytes) : Move :=
  match σ.peek 1 with
  | none => σ.atEnd (σ.go 1 (.word (some (w ++ [Byte.backslash]))))
  | some e =>
    if e = Byte.newline then σ.go 2 (.quoted Byte.doubleQuote w)
    else if e = Byte.doubleQuote ∨ e = Byte.backslash then
      σ.go 2 (.quoted Byte.doubleQuote (w ++ [e]))
    else σ.go 1 (.quoted Byte.doubleQuote (w ++ [Byte.backslash]))

def inQuotes (σ : Cursor) (quote : UInt8) (w : Bytes) : Move :=
  match σ.peek 0 with
  | none => σ.atEnd (σ.go 0 (.word (some w)))
  | some c =>
    if c = quote then σ.go 1 (.word (some w))
    else if c = Byte.backslash ∧ quote = Byte.doubleQuote then σ.escapeQuoted w
    else σ.go 1 (.quoted quote (w ++ [c]))

def step (σ : Cursor) : Move :=
  match σ.task with
  | .gap => σ.inGap
  | .comment => σ.inComment
  | .word w => σ.inWord w
  | .opening w => σ.atQuote w
  | .quoted quote w => σ.inQuotes quote w

def Move.next : Move → Move
  | goes σ => σ.step
  | m => m

def Task.mode : Task → Mode
  | gap => .gap
  | comment => .comment
  | word _ | opening _ => .word
  | quoted quote _ => if quote = Byte.singleQuote then .single else .double

@[simp]
theorem Task.mode_single (w : Bytes) : (quoted Byte.singleQuote w).mode = .single := rfl

@[simp]
theorem Task.mode_double (w : Bytes) : (quoted Byte.doubleQuote w).mode = .double := rfl

def Task.letters : Task → Option Bytes
  | gap | comment => none
  | word w | opening w => w
  | quoted _ w => some w

/-- The line, as it is if what is behind the position is read on. -/
def ahead (σ : Cursor) : Option (List Token × Bytes) :=
  Scan.line σ.parser.finished ⟨σ.task.mode, σ.tokens, σ.task.letters.map .word⟩
    (σ.parser.buffer.drop σ.position)

/-- What has to be at the position for a task to be right there. -/
def Task.Fits : Task → Option UInt8 → Prop
  | opening _, next => next = some Byte.singleQuote ∨ next = some Byte.doubleQuote
  | quoted quote _, _ => quote = Byte.singleQuote ∨ quote = Byte.doubleQuote
  | _, _ => True

structure Sound (σ : Cursor) : Prop where
  ne_nil : σ.parser.buffer ≠ []
  le : σ.position ≤ σ.parser.buffer.length
  fits : σ.task.Fits (σ.peek 0)
  reads : σ.ahead = Lexer.line σ.parser.finished σ.parser.buffer

/-- How many steps a task can take at a position before the position moves, and some to spare. A
comment or a word that is over goes back to the gap, which enters neither where it would be over at
once. -/
def Task.weight : Task → Option UInt8 → Nat
  | gap, _ => 2
  | comment, next => if next.all (· == Byte.newline) then 3 else 0
  | word _, next => if next.all Byte.isDelimiter then 3 else 1
  | opening _, _ => 0
  | quoted .., _ => 4

def rank (σ : Cursor) : Nat :=
  5 * (σ.parser.buffer.length - σ.position) + σ.task.weight (σ.peek 0)

def Move.rank : Move → Nat
  | goes σ => σ.rank + 1
  | _ => 0

def Move.Leads (p : Parser) : Move → Prop
  | goes σ => σ.Sound ∧ Relation.ReflTransGen Parser.DropsLine p σ.parser ∧ σ.parser.pop = p.pop
  | gives x q => p.pop = (x, q)
  | faults => False

structure Good (σ : Cursor) (m : Move) : Prop where
  leads : m.Leads σ.parser
  rank : m.rank ≤ σ.rank

variable {p q : Parser} {σ : Cursor} {m : Move} {i n : Nat} {ts us : List Token} {t : Task}
  {c : UInt8} {w : Option Bytes}

theorem drop_of_peek (h : σ.peek n = some c) :
    σ.parser.buffer.drop (σ.position + n) = c :: σ.parser.buffer.drop (σ.position + (n + 1)) := by
  obtain ⟨hlt, rfl⟩ := List.getElem?_eq_some_iff.1 h
  exact List.drop_eq_getElem_cons hlt

theorem lt_of_peek (h : σ.peek n = some c) : σ.position + n < σ.parser.buffer.length :=
  (List.getElem?_eq_some_iff.1 h).1

theorem drop_of_peek_eq_none (h : σ.peek n = none) :
    σ.parser.buffer.drop (σ.position + n) = [] :=
  List.drop_eq_nil_of_le (List.getElem?_eq_none_iff.1 h)

theorem Task.weight_le (t : Task) (next : Option UInt8) : t.weight next ≤ 4 := by
  cases t <;> grind [weight]

theorem leads_enter (p : Parser) : (enter p).Leads p := by
  unfold enter
  split
  · rename_i hp
    obtain ⟨b, f⟩ := p
    obtain rfl : b = [] := hp
    exact Parser.pop_nil f
  · rename_i hp
    exact ⟨⟨hp, Nat.zero_le _, trivial, (Lexer.line_eq_scan _ _).symm⟩, .refl, rfl⟩

theorem rank_enter_le (hp : p.buffer = [] ∨ 5 * p.buffer.length + 3 ≤ n) : (enter p).rank ≤ n := by
  unfold enter
  split
  · exact Nat.zero_le n
  · exact hp.resolve_left ‹_›

theorem Move.Leads.trans (hp : Relation.ReflTransGen Parser.DropsLine p q) (he : q.pop = p.pop)
    (h : m.Leads q) : m.Leads p := by
  cases m with
  | goes σ => exact ⟨h.1, hp.trans h.2.1, h.2.2.trans he⟩
  | gives x r => exact he.symm.trans h
  | faults => exact h

theorem Sound.good_move (h : σ.Sound) (hlt : σ.position + n < σ.parser.buffer.length)
    (hfits : t.Fits (σ.peek (n + 1)))
    (hahead : σ.ahead = Scan.line σ.parser.finished ⟨t.mode, us, t.letters.map .word⟩
      (σ.parser.buffer.drop (σ.position + (n + 1)))) :
    Good σ (.goes ⟨σ.parser, σ.position + (n + 1), us, t⟩) := by
  refine ⟨⟨⟨h.ne_nil, hlt, hfits, hahead.symm.trans h.reads⟩, .refl, rfl⟩, ?_⟩
  show 5 * (σ.parser.buffer.length - (σ.position + (n + 1))) + t.weight (σ.peek (n + 1)) + 1 ≤
    5 * (σ.parser.buffer.length - σ.position) + σ.task.weight (σ.peek 0)
  have := t.weight_le (σ.peek (n + 1))
  omega

theorem Sound.good_stay (h : σ.Sound) (hfits : t.Fits (σ.peek 0))
    (hahead : σ.ahead = Scan.line σ.parser.finished ⟨t.mode, us, t.letters.map .word⟩
      (σ.parser.buffer.drop σ.position))
    (hw : t.weight (σ.peek 0) < σ.task.weight (σ.peek 0)) :
    Good σ (.goes ⟨σ.parser, σ.position, us, t⟩) := by
  refine ⟨⟨⟨h.ne_nil, h.le, hfits, hahead.symm.trans h.reads⟩, .refl, rfl⟩, ?_⟩
  exact Nat.add_lt_add_left hw (5 * (σ.parser.buffer.length - σ.position))

theorem Sound.good_atEnd (h : σ.Sound)
    (hopen : σ.parser.finished = false → σ.ahead = none)
    (hm : σ.parser.finished = true → Good σ m) : Good σ (σ.atEnd m) := by
  unfold atEnd
  split
  · rename_i hf
    exact hm hf
  · rename_i hf
    have hline := h.reads.symm.trans (hopen (Bool.eq_false_iff.2 hf))
    exact ⟨Parser.pop_of_no_line hline, Nat.zero_le _⟩

theorem Sound.good_drop (h : σ.Sound) (hle : n ≤ σ.parser.buffer.length)
    (hahead : σ.ahead = some (σ.tokens, σ.parser.buffer.drop n))
    (hn : σ.position < n ∧ σ.task = .gap ∨ n = σ.parser.buffer.length) : Good σ (σ.drop n) := by
  have hline := h.reads.symm.trans hahead
  have hpop := Parser.pop_of_line hline
  rw [drop, if_pos hle]
  cases ho : CommandLine.outcome? σ.tokens with
  | some x =>
    rw [ho] at hpop
    exact ⟨hpop, Nat.zero_le _⟩
  | none =>
    rw [ho] at hpop
    have hdrop : σ.parser.DropsLine { σ.parser with buffer := σ.parser.buffer.drop n } :=
      ⟨h.ne_nil, ⟨_, hline⟩, rfl⟩
    refine ⟨(leads_enter _).trans (.single hdrop) hpop.symm, rank_enter_le ?_⟩
    obtain ⟨hlt, ht⟩ | rfl := hn
    · right
      simp only [Cursor.rank, ht, Task.weight, List.length_drop]
      omega
    · exact .inl List.drop_length

theorem operator?_eq (c : UInt8) (s : Bytes) :
    Lexer.operator? c s = (signs? c).map fun x => Lexer.doubled c x.1 x.2 s := by
  unfold Lexer.operator? signs?
  grind

theorem doubled_of_head? {two one : Token} {s : Bytes} (h : s.head? ≠ some c) :
    Lexer.doubled c two one s = (one, s) := by
  cases s with
  | nil => rfl
  | cons d s => rw [Lexer.doubled, if_neg (by simpa using h)]

theorem line_part_none {f : Bool} {m m' : Mode} {s : Bytes} (he : m.endsAt c = false)
    (h : m.read c = (m', .part)) :
    Scan.line f ⟨m, ts, none⟩ (c :: s) = Scan.line f ⟨m', ts, none⟩ s := by
  simp [Scan.line_part he h]

theorem Sound.good_inGap (h : σ.Sound) (ht : σ.task = .gap) : Good σ σ.inGap := by
  have ha : σ.ahead = Scan.line σ.parser.finished ⟨.gap, σ.tokens, none⟩
      (σ.parser.buffer.drop σ.position) := by rw [ahead, ht]; rfl
  unfold inGap
  split
  · rename_i hend
    have hd : σ.parser.buffer.drop σ.position = [] := drop_of_peek_eq_none hend
    refine h.good_atEnd (fun hf => ?_) fun hf => ?_
    · rw [ha, hd, hf, Scan.line]
      rfl
    · refine h.good_drop h.le ?_ (.inr (Nat.le_antisymm h.le (by simpa using hd)))
      rw [ha, hd, hf]
      simp [Scan.line, Scan.closed, Scan.settled]
  rename_i c hc
  have hd : σ.parser.buffer.drop σ.position = c :: σ.parser.buffer.drop (σ.position + 1) :=
    drop_of_peek hc
  have hlt : σ.position < σ.parser.buffer.length := lt_of_peek hc
  split
  · rename_i hb
    refine h.good_move hlt trivial ?_
    rw [ha, hd]
    exact line_part_none (by grind [Mode.endsAt, Byte.isBlank]) (by simp [Mode.read, hb]; rfl)
  split
  · rename_i hn
    subst hn
    refine h.good_drop hlt ?_ (.inl ⟨Nat.lt_succ_self _, ht⟩)
    rw [ha, hd]
    simp [Scan.line, Mode.endsAt, Scan.settled]
  rename_i hb hn
  split
  · rename_i hh
    subst hh
    refine h.good_stay trivial ?_ ?_
    · rw [ha, hd, line_part_none rfl rfl]
      exact (Scan.line_skip rfl rfl).symm
    · simp only [ht, hc, Task.weight]
      decide
  rename_i hh
  split
  · rename_i two one hs
    have ho := operator?_eq c (σ.parser.buffer.drop (σ.position + 1))
    rw [hs, Option.map_some] at ho
    split
    · rename_i h1
      have hd1 : σ.parser.buffer.drop (σ.position + 1) = c :: σ.parser.buffer.drop (σ.position + 2) :=
        drop_of_peek h1
      refine h.good_move (lt_of_peek h1) trivial ?_
      rw [ha, hd]
      rw [hd1] at ho ⊢
      exact Scan.line_operator (by simpa [Lexer.doubled] using ho)
    · rename_i h1
      refine h.good_move hlt trivial ?_
      rw [ha, hd]
      refine Scan.line_operator (ho.trans ?_)
      rw [doubled_of_head? (by rwa [List.head?_drop])]
  · rename_i hs
    have hw := Scan.isDelimiter_of_operator?_eq_none (s := []) hb hn (by rw [operator?_eq, hs]; rfl)
    refine h.good_stay trivial ?_ (by simp [ht, hc, Task.weight, hw])
    rw [ha, hd]
    exact Scan.line_gap_eq_word hw hh

theorem Sound.good_inComment (h : σ.Sound) (ht : σ.task = .comment) : Good σ σ.inComment := by
  have ha : σ.ahead = Scan.line σ.parser.finished ⟨.comment, σ.tokens, none⟩
      (σ.parser.buffer.drop σ.position) := by rw [ahead, ht]; rfl
  unfold inComment
  split
  · rename_i hend
    have hd : σ.parser.buffer.drop σ.position = [] := drop_of_peek_eq_none hend
    refine h.good_stay trivial ?_ (by simp [ht, hend, Task.weight])
    rw [ha, hd]
    exact Scan.line_comment _ _ _
  rename_i c hc
  have hd : σ.parser.buffer.drop σ.position = c :: σ.parser.buffer.drop (σ.position + 1) :=
    drop_of_peek hc
  split
  · rename_i hn
    subst hn
    refine h.good_stay trivial ?_ (by simp [ht, hc, Task.weight])
    rw [ha, hd]
    exact Scan.line_comment _ _ _
  · rename_i hn
    refine h.good_move (lt_of_peek hc) trivial ?_
    rw [ha, hd]
    exact Scan.line_skip (by simp [Mode.endsAt, hn]) rfl

theorem Sound.good_escape (h : σ.Sound) (hc : σ.peek 0 = some Byte.backslash)
    (ha : σ.ahead = Scan.line σ.parser.finished ⟨.word, σ.tokens, w.map .word⟩
      (Byte.backslash :: σ.parser.buffer.drop (σ.position + 1))) : Good σ (σ.escape w) := by
  rw [Scan.line_skip rfl (n := .escape) rfl] at ha
  unfold escape
  split
  · rename_i hend
    have hd : σ.parser.buffer.drop (σ.position + 1) = [] := drop_of_peek_eq_none hend
    refine h.good_atEnd (fun hf => ?_) fun hf => h.good_move (lt_of_peek hc) trivial ?_
    · rw [ha, hd, hf, Scan.line]
      rfl
    · rw [ha, hd, hf]
      rfl
  rename_i e he
  have hd : σ.parser.buffer.drop (σ.position + 1) = e :: σ.parser.buffer.drop (σ.position + 2) :=
    drop_of_peek he
  rw [hd] at ha
  split
  · rename_i hn
    subst hn
    refine h.good_move (lt_of_peek he) trivial (ha.trans ?_)
    exact Scan.line_skip rfl rfl
  · rename_i hn
    refine h.good_move (lt_of_peek he) trivial (ha.trans ?_)
    exact Scan.line_add rfl (by simp [Mode.read, hn, Task.mode])

theorem Sound.good_inWord (h : σ.Sound) (ht : σ.task = .word w) : Good σ (σ.inWord w) := by
  have ha : σ.ahead = Scan.line σ.parser.finished ⟨.word, σ.tokens, w.map .word⟩
      (σ.parser.buffer.drop σ.position) := by rw [ahead, ht]; rfl
  unfold inWord
  split
  · rename_i hend
    have hd : σ.parser.buffer.drop σ.position = [] := drop_of_peek_eq_none hend
    have hgap : Good σ (σ.put 0 (w.map Token.word).toList) := by
      refine h.good_stay trivial ?_ (by simp [ht, hend, Task.weight])
      rw [ha, hd]
      simp [Scan.line, Scan.closed, Scan.settled, Task.mode, Task.letters]
    split
    · rename_i hw
      subst hw
      refine h.good_atEnd (fun hf => ?_) fun _ => by simpa [put, go] using hgap
      rw [ha, hd, hf, Scan.line]
      rfl
    · exact hgap
  rename_i c hc
  have hd : σ.parser.buffer.drop σ.position = c :: σ.parser.buffer.drop (σ.position + 1) :=
    drop_of_peek hc
  rw [hd] at ha
  split
  · rename_i hdelim
    refine h.good_stay trivial (ha.trans ?_) (by simp [ht, hc, hdelim, Task.weight])
    rw [hd]
    exact Scan.line_word_at_delimiter hdelim
  rename_i hdelim
  split
  · rename_i hb
    subst hb
    exact h.good_escape hc ha
  rename_i hb
  split
  · rename_i hq
    refine h.good_stay ?_ (by rw [ha, hd]; rfl) (by simp [ht, hc, Task.weight, hdelim])
    simpa [hc, Task.Fits] using hq
  · rename_i hq
    refine h.good_move (lt_of_peek hc) trivial (ha.trans ?_)
    have he : Mode.endsAt .word c = false := by grind [Mode.endsAt, Byte.isDelimiter]
    exact Scan.line_add he (Scan.read_word_plain hdelim hb (not_or.1 hq).1 (not_or.1 hq).2)

theorem Sound.good_atQuote (h : σ.Sound) (ht : σ.task = .opening w) : Good σ (σ.atQuote w) := by
  have ha : σ.ahead = Scan.line σ.parser.finished ⟨.word, σ.tokens, w.map .word⟩
      (σ.parser.buffer.drop σ.position) := by rw [ahead, ht]; rfl
  have hquote := h.fits
  rw [ht] at hquote
  unfold atQuote
  split
  · rename_i hend
    simp [hend, Task.Fits] at hquote
  rename_i quote hc
  have hd : σ.parser.buffer.drop σ.position = quote :: σ.parser.buffer.drop (σ.position + 1) :=
    drop_of_peek hc
  simp only [hc, Task.Fits, Option.some.injEq] at hquote
  refine h.good_move (lt_of_peek hc) hquote ?_
  rw [ha, hd]
  obtain rfl | rfl := hquote
  · exact (Scan.line_add rfl rfl).trans (by simp [Task.letters])
  · exact (Scan.line_add rfl rfl).trans (by simp [Task.letters])

theorem Sound.good_escapeQuoted {w : Bytes} (h : σ.Sound) (hc : σ.peek 0 = some Byte.backslash)
    (ha : σ.ahead = Scan.line σ.parser.finished ⟨.double, σ.tokens, (some w).map .word⟩
      (Byte.backslash :: σ.parser.buffer.drop (σ.position + 1))) : Good σ (σ.escapeQuoted w) := by
  rw [Scan.line_skip rfl (n := .doubleEscape) rfl] at ha
  unfold escapeQuoted
  split
  · rename_i hend
    have hd : σ.parser.buffer.drop (σ.position + 1) = [] := drop_of_peek_eq_none hend
    rw [hd] at ha
    refine h.good_atEnd (fun hf => ?_) fun hf => h.good_move (lt_of_peek hc) trivial (ha.trans ?_)
    · rw [ha, hf, Scan.line]
      rfl
    · rw [hd, hf]
      simp [Scan.line, Scan.closed, Scan.add, Scan.settled, Task.mode, Task.letters]
  rename_i e he
  have hd : σ.parser.buffer.drop (σ.position + 1) = e :: σ.parser.buffer.drop (σ.position + 2) :=
    drop_of_peek he
  rw [hd] at ha
  split
  · rename_i hn
    subst hn
    refine h.good_move (lt_of_peek he) (.inr rfl) (ha.trans ?_)
    exact Scan.line_skip rfl rfl
  rename_i hn
  split
  · rename_i hs
    refine h.good_move (lt_of_peek he) (.inr rfl) (ha.trans ?_)
    exact Scan.line_add rfl (by simp [Mode.read, hn, hs])
  · rename_i hs
    refine h.good_move (lt_of_peek hc) (.inr rfl) (ha.trans ?_)
    have hpair : Mode.read .doubleEscape e = (.double, .add [Byte.backslash, e]) := by
      simp [Mode.read, hn, hs]
    have hsecond : Mode.read .double e = (.double, .add [e]) := by simp [Mode.read, not_or.1 hs]
    rw [hd, Task.mode_double, Scan.line_add rfl hpair]
    -- the lexer adds the two bytes at once
    exact (congrArg₂ _ (by simp [Task.letters]) rfl).trans (Scan.line_add rfl hsecond).symm

theorem Sound.good_inQuotes {quote : UInt8} {w : Bytes} (h : σ.Sound)
    (ht : σ.task = .quoted quote w) : Good σ (σ.inQuotes quote w) := by
  have ha : σ.ahead = Scan.line σ.parser.finished
      ⟨(Task.quoted quote w).mode, σ.tokens, (some w).map .word⟩
      (σ.parser.buffer.drop σ.position) := by rw [ahead, ht]; rfl
  have hquote := h.fits
  rw [ht] at hquote
  unfold inQuotes
  split
  · rename_i hend
    have hd : σ.parser.buffer.drop σ.position = [] := drop_of_peek_eq_none hend
    refine h.good_atEnd (fun hf => ?_) fun hf => h.good_stay trivial ?_ ?_
    · rw [ha, hd, hf, Scan.line]
      rfl
    · rw [ha, hd, hf]
      obtain rfl | rfl := hquote <;> rfl
    · simp [ht, hend, Task.weight]
  rename_i c hc
  have hd : σ.parser.buffer.drop σ.position = c :: σ.parser.buffer.drop (σ.position + 1) :=
    drop_of_peek hc
  rw [hd] at ha
  split
  · rename_i hq
    subst hq
    refine h.good_move (lt_of_peek hc) trivial (ha.trans ?_)
    obtain rfl | rfl := hquote <;> exact Scan.line_skip rfl rfl
  rename_i hq
  split
  · rename_i hb
    obtain ⟨rfl, rfl⟩ := hb
    exact h.good_escapeQuoted hc ha
  · rename_i hb
    refine h.good_move (lt_of_peek hc) hquote (ha.trans ?_)
    obtain rfl | rfl := hquote
    · exact Scan.line_add rfl (by simp [Mode.read, hq])
    · have hb : c ≠ Byte.backslash := fun hc => hb ⟨hc, rfl⟩
      exact Scan.line_add rfl (by simp [Mode.read, hq, hb])

theorem Sound.good_step (h : σ.Sound) : Good σ σ.step := by
  unfold step
  split
  · exact h.good_inGap ‹_›
  · exact h.good_inComment ‹_›
  · exact h.good_inWord ‹_›
  · exact h.good_atQuote ‹_›
  · exact h.good_inQuotes ‹_›

theorem Move.Leads.next (h : m.Leads p) : m.next.Leads p := by
  cases m with
  | goes σ => exact h.1.good_step.leads.trans h.2.1 h.2.2
  | gives x q => exact h
  | faults => exact h

theorem Move.Leads.rank_next (h : m.Leads p) : m.next.rank ≤ m.rank - 1 := by
  cases m with
  | goes σ => exact h.1.good_step.rank
  | gives x q => exact Nat.zero_le _
  | faults => exact Nat.zero_le _

theorem leads_iterate_next (p : Parser) (n : Nat) : (Move.next^[n] (enter p)).Leads p := by
  induction n with
  | zero => exact leads_enter p
  | succ n ih =>
    rw [Function.iterate_succ_apply']
    exact ih.next

theorem rank_iterate_next_le (p : Parser) (n : Nat) :
    (Move.next^[n] (enter p)).rank ≤ 5 * p.buffer.length + 3 - n := by
  induction n with
  | zero => exact rank_enter_le (.inr (Nat.le_refl _))
  | succ n ih =>
    rw [Function.iterate_succ_apply']
    have := (leads_iterate_next p n).rank_next
    omega

theorem iterate_next_enter (hn : 5 * p.buffer.length + 3 ≤ n) :
    Move.next^[n] (enter p) = .gives p.pop.1 p.pop.2 := by
  have hleads := leads_iterate_next p n
  have hrank := rank_iterate_next_le p n
  cases hm : Move.next^[n] (enter p) with
  | goes σ =>
    rw [hm, Move.rank] at hrank
    omega
  | gives x q =>
    rw [hm] at hleads
    have hpop : p.pop = (x, q) := hleads
    rw [hpop]
  | faults =>
    rw [hm] at hleads
    exact hleads.elim

end Cursor
end PipeShell
