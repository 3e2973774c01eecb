import PipeShell.Proofs.CommandLine.Draft
import PipeShell.Proofs.Parser.Popping

/-! Command lines written out as text. A word is written in segments, each quoted in a manner of its
own; words are set apart by blanks, and a comment may stand at the end. The structures hold all ways
of writing a line. Main statement: popping a text gives out the lines it was written from, and every
line of commands joined by pipes can be written (`popAll_flatMap_text`). -/
namespace PipeShell

/-- A byte that stands for itself without quotes. -/
def Byte.isBare (c : UInt8) : Bool :=
  !(isDelimiter c || c == singleQuote || c == doubleQuote || c == backslash)

inductive Segment
  | single (v : Bytes) (h : Byte.singleQuote ∉ v)
  | double (v : Bytes)
  | escaped (v : Bytes) (h : Byte.newline ∉ v)
  | bare (v : Bytes) (h : ∀ c ∈ v, Byte.isBare c = true)

namespace Segment

def value : Segment → Bytes
  | single v _ | double v | escaped v _ | bare v _ => v

def protect (c : UInt8) : Bytes :=
  if c = Byte.doubleQuote ∨ c = Byte.backslash then [Byte.backslash, c] else [c]

def text : Segment → Bytes
  | single v _ => Byte.singleQuote :: v ++ [Byte.singleQuote]
  | double v => Byte.doubleQuote :: v.flatMap protect ++ [Byte.doubleQuote]
  | escaped v _ => v.flatMap fun c => [Byte.backslash, c]
  | bare v _ => v

def IsPresent : Segment → Prop
  | single _ _ | double _ => True
  | escaped v _ | bare v _ => v ≠ []

end Segment

/-- A way of writing a word. Its first byte is no `#` that stands for itself. -/
structure WrittenWord where
  segments : List Segment
  present : ∃ g ∈ segments, g.IsPresent
  unhashed : (segments.flatMap Segment.text).head? ≠ some Byte.hash

def WrittenWord.value (w : WrittenWord) : Bytes := w.segments.flatMap Segment.value

def WrittenWord.text (w : WrittenWord) : Bytes := w.segments.flatMap Segment.text

abbrev Blanks := {b : Bytes // ∀ c ∈ b, Byte.isBlank c = true}

abbrev Gap := {b : Bytes // b ≠ [] ∧ ∀ c ∈ b, Byte.isBlank c = true}

structure WrittenCommand where
  name : WrittenWord
  arguments : List (Gap × WrittenWord)

def WrittenCommand.value (c : WrittenCommand) : Command :=
  ⟨c.name.value, c.arguments.map fun a => a.2.value⟩

def WrittenCommand.text (c : WrittenCommand) : Bytes :=
  c.name.text ++ c.arguments.flatMap fun a => a.1.1 ++ a.2.text

structure WrittenStage where
  before : Blanks
  after : Blanks
  command : WrittenCommand

def WrittenStage.text (g : WrittenStage) : Bytes :=
  g.before.1 ++ Byte.bar :: (g.after.1 ++ g.command.text)

structure WrittenRedirect where
  before : Blanks
  mode : RedirectMode
  after : Blanks
  target : WrittenWord

def WrittenRedirect.value (r : WrittenRedirect) : Redirect := ⟨r.target.value, r.mode⟩

def RedirectMode.sign : RedirectMode → Bytes
  | truncate => [Byte.greater]
  | append => [Byte.greater, Byte.greater]

def WrittenRedirect.text (r : WrittenRedirect) : Bytes :=
  r.before.1 ++ (r.mode.sign ++ (r.after.1 ++ r.target.text))

/-- What stands between the last word and the newline. -/
inductive Ending
  | plain (b : Blanks)
  | comment (b : Gap) (v : Bytes) (h : Byte.newline ∉ v)

def Ending.text : Ending → Bytes
  | plain b => b.1
  | comment b v _ => b.1 ++ Byte.hash :: v

structure WrittenLine where
  lead : Blanks
  first : WrittenCommand
  stages : List WrittenStage
  redirect : Option WrittenRedirect
  ending : Ending

def WrittenLine.value (l : WrittenLine) : CommandLine :=
  .pipeline (l.first.value :: l.stages.map fun g => g.command.value)
    (l.redirect.map WrittenRedirect.value)

def WrittenLine.text (l : WrittenLine) : Bytes :=
  l.lead.1 ++ (l.first.text ++ (l.stages.flatMap WrittenStage.text ++
    (l.redirect.elim [] WrittenRedirect.text ++ (l.ending.text ++ [Byte.newline]))))

namespace Lexer
variable {f : Bool} {c : UInt8} {s r u v w : Bytes} {t : Token} {ts us : List Token}

def prepend (ts : List Token) (x : List Token × Bytes) : List Token × Bytes := (ts ++ x.1, x.2)

/-- Before `s`, the text `u` is read as the tokens `ts`. -/
def Reads (u : Bytes) (ts : List Token) (s : Bytes) : Prop :=
  ∀ f, line f (u ++ s) = (line f s).map (prepend ts)

theorem Reads.nil (s : Bytes) : Reads [] [] s := by
  intro f
  have h : prepend [] = id := rfl
  simp [h]

theorem Reads.append (hu : Reads u ts (v ++ s)) (hv : Reads v us s) :
    Reads (u ++ v) (ts ++ us) s := by
  intro f
  rw [List.append_assoc, hu f, hv f, Option.map_map]
  congr 1
  funext x
  simp [prepend]

theorem Reads.cons (hu : Reads [c] ts (v ++ s)) (hv : Reads v us s) :
    Reads (c :: v) (ts ++ us) s :=
  hu.append hv

theorem reads_blanks (b : Blanks) (s : Bytes) : Reads b.1 [] s := by
  obtain ⟨b, hb⟩ := b
  induction b with
  | nil => exact .nil s
  | cons c b ih =>
    intro f
    rw [List.cons_append, line, if_pos (hb c List.mem_cons_self)]
    exact ih (fun d hd => hb d (List.mem_cons_of_mem c hd)) f

theorem line_newline (f : Bool) (s : Bytes) : line f (Byte.newline :: s) = some ([], s) := by
  rw [line]
  rfl

theorem reads_comment (hv : Byte.newline ∉ v) (s : Bytes) :
    Reads (Byte.hash :: v) [] (Byte.newline :: s) := by
  intro f
  have hd : (v ++ Byte.newline :: s).dropWhile (· != Byte.newline) = Byte.newline :: s := by
    rw [List.dropWhile_append_of_pos]
    · rfl
    · intro c hc
      simpa using fun h : c = Byte.newline => hv (h ▸ hc)
  rw [List.cons_append, line, hd]
  exact Reads.nil _ f

theorem line_operator (h : operator? c s = some (t, r)) (f : Bool) :
    line f (c :: s) = (line f r).map (prepend [t]) := by
  have hc : ¬(c ≠ Byte.bar ∧ c ≠ Byte.ampersand ∧ c ≠ Byte.greater) := by
    intro hc
    rw [operator?_eq_none.2 hc] at h
    cases h
  have hn : Byte.isBlank c = false ∧ c ≠ Byte.newline ∧ c ≠ Byte.hash := by
    grind [Byte.isBlank]
  rw [line, if_neg (by simp [hn.1]), if_neg hn.2.1, if_neg hn.2.2]
  split
  · rename_i t' r' h'
    rw [h, Option.some.injEq, Prod.mk.injEq] at h'
    obtain ⟨rfl, rfl⟩ := h'
    rfl
  · rename_i h'
    rw [h] at h'
    cases h'

theorem doubled_of_head?_ne {two one : Token} (h : s.head? ≠ some c) :
    doubled c two one s = (one, s) := by
  cases s with
  | nil => rfl
  | cons d s => rw [doubled, if_neg (by simpa using h)]

theorem reads_pipe (h : s.head? ≠ some Byte.bar) : Reads [Byte.bar] [.pipe] s := by
  intro f
  refine line_operator ?_ f
  change some (doubled Byte.bar _ _ s) = _
  rw [doubled_of_head?_ne h]

theorem reads_sign (m : RedirectMode) (h : s.head? ≠ some Byte.greater) :
    Reads m.sign [.redirect m] s := by
  intro f
  cases m with
  | truncate =>
    refine line_operator ?_ f
    change some (doubled Byte.greater _ _ s) = _
    rw [doubled_of_head?_ne h]
  | append => exact line_operator rfl f

theorem word_delimiter (hc : Byte.isDelimiter c = true) :
    word f .bare (c :: s) = some (none, c :: s) := by
  rw [word.eq_def]
  simp [hc]

theorem word_plain (hc : Byte.isBare c = true) :
    word f .bare (c :: s) = (word f .bare s).map (lead [c]) := by
  simp only [Byte.isBare, Bool.not_eq_true', Bool.or_eq_false_iff, beq_eq_false_iff_ne] at hc
  obtain ⟨⟨⟨hd, hs⟩, hq⟩, hb⟩ := hc
  rw [word.eq_def]
  simp [hd, hb, hs, hq]

theorem word_escape (hc : c ≠ Byte.newline) :
    word f .bare (Byte.backslash :: c :: s) = (word f .bare s).map (lead [c]) := by
  have hb : Byte.isDelimiter Byte.backslash = false := rfl
  rw [word.eq_def]
  simp [hb, hc]

theorem word_open_single :
    word f .bare (Byte.singleQuote :: s) = (word f .single s).map (lead []) := by
  have hd : Byte.isDelimiter Byte.singleQuote = false := rfl
  have hb : Byte.singleQuote ≠ Byte.backslash := by decide
  rw [word.eq_def]
  simp [hd, hb]

theorem word_open_double :
    word f .bare (Byte.doubleQuote :: s) = (word f .double s).map (lead []) := by
  have hd : Byte.isDelimiter Byte.doubleQuote = false := rfl
  have hb : Byte.doubleQuote ≠ Byte.backslash ∧ Byte.doubleQuote ≠ Byte.singleQuote := by decide
  rw [word.eq_def]
  simp [hd, hb]

theorem word_single_byte (hc : c ≠ Byte.singleQuote) :
    word f .single (c :: s) = (word f .single s).map (lead [c]) := by
  rw [word.eq_def]
  simp [hc]

theorem word_single_close : word f .single (Byte.singleQuote :: s) = word f .bare s := by
  rw [word.eq_def]
  simp

theorem word_double_close : word f .double (Byte.doubleQuote :: s) = word f .bare s := by
  rw [word.eq_def]
  simp

theorem word_protect :
    word f .double (Segment.protect c ++ s) = (word f .double s).map (lead [c]) := by
  by_cases hc : c = Byte.doubleQuote ∨ c = Byte.backslash
  · obtain rfl | rfl := hc <;> rfl
  · have hn := not_or.1 hc
    rw [Segment.protect, if_neg hc, List.singleton_append, word.eq_def]
    simp [hn]

theorem lead_lead (x : Option Bytes × Bytes) : lead u (lead v x) = lead (u ++ v) x := by
  simp [lead]

theorem map_lead_map_lead (o : Option (Option Bytes × Bytes)) :
    (o.map (lead v)).map (lead u) = o.map (lead (u ++ v)) := by
  simp [Function.comp_def, lead_lead]

theorem word_flatMap {q : Quoting} {enc : UInt8 → Bytes}
    (h : ∀ c ∈ v, ∀ s, word f q (enc c ++ s) = (word f q s).map (lead [c])) (u s : Bytes) :
    (word f q (v.flatMap enc ++ s)).map (lead u) = (word f q s).map (lead (u ++ v)) := by
  induction v generalizing u with
  | nil => simp
  | cons c v ih =>
    have ih := ih fun d hd => h d (List.mem_cons_of_mem c hd)
    rw [List.flatMap_cons, List.append_assoc, h c List.mem_cons_self, map_lead_map_lead, ih,
      List.append_assoc, List.singleton_append]

theorem word_flatMap_of_ne_nil {q : Quoting} {enc : UInt8 → Bytes} (hv : v ≠ [])
    (h : ∀ c ∈ v, ∀ s, word f q (enc c ++ s) = (word f q s).map (lead [c])) (s : Bytes) :
    word f q (v.flatMap enc ++ s) = (word f q s).map (lead v) := by
  cases v with
  | nil => exact absurd rfl hv
  | cons c v =>
    rw [List.flatMap_cons, List.append_assoc, h c List.mem_cons_self]
    exact word_flatMap (fun d hd => h d (List.mem_cons_of_mem c hd)) [c] s

theorem word_of_isPresent {g : Segment} (hg : g.IsPresent) (s : Bytes) :
    word f .bare (g.text ++ s) = (word f .bare s).map (lead g.value) := by
  cases g with
  | single v hv =>
    have hc : ∀ c ∈ v, ∀ s, word f .single ([c] ++ s) = (word f .single s).map (lead [c]) := by
      intro c hc s
      exact word_single_byte fun h => hv (h ▸ hc)
    have h := word_flatMap hc [] (Byte.singleQuote :: s)
    rw [List.flatMap_singleton'] at h
    simp only [Segment.text, List.cons_append, List.append_assoc, List.nil_append,
      word_open_single, h, word_single_close, Segment.value]
  | double v =>
    have h := word_flatMap (fun c _ s => word_protect) [] (Byte.doubleQuote :: s) (v := v) (f := f)
    simp only [Segment.text, List.cons_append, List.append_assoc, List.nil_append,
      word_open_double, h, word_double_close, Segment.value]
  | escaped v hv =>
    refine word_flatMap_of_ne_nil hg ?_ s
    intro c hc s
    exact word_escape fun h => hv (h ▸ hc)
  | bare v hv =>
    have h : ∀ c ∈ v, ∀ s, word f .bare ([c] ++ s) = (word f .bare s).map (lead [c]) := by
      intro c hc s
      exact word_plain (hv c hc)
    have h := word_flatMap_of_ne_nil hg h s
    rwa [List.flatMap_singleton'] at h

theorem eq_nil_of_not_isPresent {g : Segment} (hg : ¬g.IsPresent) : g.text = [] ∧ g.value = [] := by
  cases g with
  | single v hv => exact absurd trivial hg
  | double v => exact absurd trivial hg
  | escaped v hv =>
    obtain rfl : v = [] := by simpa [Segment.IsPresent] using hg
    exact ⟨rfl, rfl⟩
  | bare v hv =>
    obtain rfl : v = [] := by simpa [Segment.IsPresent] using hg
    exact ⟨rfl, rfl⟩

theorem word_segments (gs : List Segment) (u s : Bytes) :
    (word f .bare (gs.flatMap Segment.text ++ s)).map (lead u) =
      (word f .bare s).map (lead (u ++ gs.flatMap Segment.value)) := by
  induction gs generalizing u with
  | nil => simp
  | cons g gs ih =>
    rw [List.flatMap_cons, List.flatMap_cons, List.append_assoc]
    by_cases hg : g.IsPresent
    · rw [word_of_isPresent hg, map_lead_map_lead, ih, List.append_assoc]
    · obtain ⟨ht, hv⟩ := eq_nil_of_not_isPresent hg
      rw [ht, hv, List.nil_append, List.nil_append, ih]

theorem word_segments_of_isPresent {gs : List Segment} (hp : ∃ g ∈ gs, g.IsPresent) (s : Bytes) :
    word f .bare (gs.flatMap Segment.text ++ s) =
      (word f .bare s).map (lead (gs.flatMap Segment.value)) := by
  induction gs with
  | nil => simp at hp
  | cons g gs ih =>
    rw [List.flatMap_cons, List.flatMap_cons, List.append_assoc]
    by_cases hg : g.IsPresent
    · rw [word_of_isPresent hg, word_segments]
    · obtain ⟨ht, hv⟩ := eq_nil_of_not_isPresent hg
      rw [ht, hv, List.nil_append, List.nil_append]
      exact ih (by simpa [hg] using hp)

def Delimited (s : Bytes) : Prop := ∃ c t, s = c :: t ∧ Byte.isDelimiter c = true

theorem word_written (w : WrittenWord) (hs : Delimited s) :
    word f .bare (w.text ++ s) = some (some w.value, s) := by
  obtain ⟨c, t, rfl, hc⟩ := hs
  rw [WrittenWord.text, word_segments_of_isPresent w.present, word_delimiter hc]
  simp [lead, WrittenWord.value]

theorem isDelimiter_head_segment {g : Segment} (hc : g.text.head? = some c) :
    Byte.isDelimiter c = false := by
  cases g with
  | single v hv => cases hc; rfl
  | double v => cases hc; rfl
  | escaped v hv =>
    cases v with
    | nil => cases hc
    | cons d v => cases hc; rfl
  | bare v hv =>
    have hb := hv c (List.mem_of_mem_head? hc)
    simp only [Byte.isBare, Bool.not_eq_true', Bool.or_eq_false_iff] at hb
    exact hb.1.1.1

theorem isDelimiter_head_segments {gs : List Segment}
    (hc : (gs.flatMap Segment.text).head? = some c) : Byte.isDelimiter c = false := by
  induction gs with
  | nil => cases hc
  | cons g gs ih =>
    rw [List.flatMap_cons, List.head?_append] at hc
    cases hg : g.text.head? with
    | some d =>
      rw [hg] at hc
      exact isDelimiter_head_segment (hg.trans hc)
    | none =>
      rw [hg] at hc
      exact ih hc

theorem text_ne_nil {g : Segment} (hg : g.IsPresent) : g.text ≠ [] := by
  cases g with
  | single v hv => simp [Segment.text]
  | double v => simp [Segment.text]
  | escaped v hv => cases v with
    | nil => exact absurd rfl hg
    | cons c v => simp [Segment.text]
  | bare v hv => exact hg

theorem exists_text_eq_cons (w : WrittenWord) :
    ∃ c t, w.text = c :: t ∧ Byte.isDelimiter c = false ∧ c ≠ Byte.hash := by
  obtain ⟨g, hg, hp⟩ := w.present
  cases h : w.text with
  | nil => exact absurd (List.flatMap_eq_nil_iff.1 h g hg) (text_ne_nil hp)
  | cons c t =>
    have hc : w.text.head? = some c := by rw [h]; rfl
    refine ⟨c, t, rfl, isDelimiter_head_segments hc, ?_⟩
    intro hh
    rw [hh] at hc
    exact w.unhashed hc

theorem line_word (hd : Byte.isDelimiter c = false) (hh : c ≠ Byte.hash)
    (hw : word f .bare (c :: s) = some (some w, r)) :
    line f (c :: s) = (line f r).map (prepend [.word w]) := by
  have hn : Byte.isBlank c = false ∧ c ≠ Byte.newline := by
    grind [Byte.isDelimiter, Byte.isBlank]
  have ho : operator? c s = none := operator?_eq_none.2 (by grind [Byte.isDelimiter])
  rw [line, if_neg (by simp [hn.1]), if_neg hn.2, if_neg hh]
  split
  · rename_i h
    rw [ho] at h
    cases h
  · split
    · rename_i w' r' h
      rw [hw, Option.some.injEq, Prod.mk.injEq, Option.some.injEq] at h
      obtain ⟨rfl, rfl⟩ := h
      rfl
    · rename_i h
      rw [hw] at h
      cases h
    · rename_i h
      rw [hw] at h
      cases h

theorem reads_word (w : WrittenWord) (hs : Delimited s) : Reads w.text [.word w.value] s := by
  intro f
  have hw := word_written w hs (f := f)
  obtain ⟨c, t, ht, hd, hh⟩ := exists_text_eq_cons w
  rw [ht, List.cons_append] at hw ⊢
  exact line_word hd hh hw

theorem reads_gap_word (b : Gap) (w : WrittenWord) (hs : Delimited s) :
    Reads (b.1 ++ w.text) [.word w.value] s :=
  (reads_blanks ⟨b.1, b.2.2⟩ _).append (reads_word w hs)

theorem isDelimiter_of_isBlank (hc : Byte.isBlank c = true) : Byte.isDelimiter c = true := by
  grind [Byte.isDelimiter, Byte.isBlank]

theorem delimited_of_blank {b t : Bytes} (hb : b ≠ [] ∧ ∀ c ∈ b, Byte.isBlank c = true) :
    Delimited (b ++ t) := by
  obtain ⟨hne, hb⟩ := hb
  cases b with
  | nil => exact absurd rfl hne
  | cons c b => exact ⟨c, b ++ t, rfl, isDelimiter_of_isBlank (hb c List.mem_cons_self)⟩

theorem delimited_blanks {s : Bytes} (b : Blanks) (hs : Delimited s) : Delimited (b.1 ++ s) := by
  by_cases hb : b.1 = []
  · rwa [hb]
  · exact delimited_of_blank ⟨hb, b.2⟩

theorem delimited_arguments (as : List (Gap × WrittenWord)) (hs : Delimited s) :
    Delimited ((as.flatMap fun a => a.1.1 ++ a.2.text) ++ s) := by
  cases as with
  | nil => exact hs
  | cons a as =>
    rw [List.flatMap_cons, List.append_assoc, List.append_assoc]
    exact delimited_of_blank a.1.2

theorem reads_arguments (as : List (Gap × WrittenWord)) (hs : Delimited s) :
    Reads (as.flatMap fun a => a.1.1 ++ a.2.text) (as.map fun a => .word a.2.value) s := by
  induction as with
  | nil => exact .nil s
  | cons a as ih => exact (reads_gap_word a.1 a.2 (delimited_arguments as hs)).append ih

theorem reads_command (c : WrittenCommand) (hs : Delimited s) : Reads c.text c.value.tokens s := by
  have h := (reads_word c.name (delimited_arguments c.arguments hs)).append
    (reads_arguments c.arguments hs)
  simpa [WrittenCommand.text, WrittenCommand.value, Command.tokens, Function.comp_def] using h

theorem head?_blanks_word {d : UInt8} (b : Blanks) (w : WrittenWord) (s : Bytes)
    (hd : Byte.isDelimiter d = true) (hb : Byte.isBlank d = false) :
    (b.1 ++ (w.text ++ s)).head? ≠ some d := by
  obtain ⟨b, hbl⟩ := b
  cases b with
  | cons c b =>
    intro h
    obtain rfl : c = d := Option.some.inj h
    rw [hbl c List.mem_cons_self] at hb
    cases hb
  | nil =>
    obtain ⟨c, t, ht, hc, -⟩ := exists_text_eq_cons w
    intro h
    rw [ht] at h
    obtain rfl : c = d := Option.some.inj h
    rw [hd] at hc
    cases hc

theorem delimited_stages (gs : List WrittenStage) (hs : Delimited s) :
    Delimited (gs.flatMap WrittenStage.text ++ s) := by
  cases gs with
  | nil => exact hs
  | cons g gs =>
    rw [List.flatMap_cons, List.append_assoc, WrittenStage.text, List.append_assoc]
    exact delimited_blanks g.before ⟨_, _, rfl, rfl⟩

theorem reads_stage (g : WrittenStage) (hs : Delimited s) :
    Reads g.text (.pipe :: g.command.value.tokens) s := by
  have hc : Reads (g.after.1 ++ g.command.text) g.command.value.tokens s :=
    (reads_blanks g.after _).append (reads_command g.command hs)
  have hp : (g.after.1 ++ g.command.text ++ s).head? ≠ some Byte.bar := by
    rw [WrittenCommand.text, List.append_assoc, List.append_assoc]
    exact head?_blanks_word g.after g.command.name _ rfl rfl
  exact (reads_blanks g.before _).append ((reads_pipe hp).cons hc)

theorem reads_stages (gs : List WrittenStage) (hs : Delimited s) :
    Reads (gs.flatMap WrittenStage.text)
      (gs.flatMap fun g => .pipe :: g.command.value.tokens) s := by
  induction gs with
  | nil => exact .nil s
  | cons g gs ih => exact (reads_stage g (delimited_stages gs hs)).append ih

theorem delimited_redirect (r : Option WrittenRedirect) (hs : Delimited s) :
    Delimited (r.elim [] WrittenRedirect.text ++ s) := by
  cases r with
  | none => exact hs
  | some r =>
    rw [Option.elim_some, WrittenRedirect.text, List.append_assoc]
    refine delimited_blanks r.before ?_
    cases r.mode <;> exact ⟨_, _, rfl, rfl⟩

theorem reads_redirect (r : Option WrittenRedirect) (hs : Delimited s) :
    Reads (r.elim [] WrittenRedirect.text)
      ((r.map WrittenRedirect.value).elim [] Redirect.tokens) s := by
  cases r with
  | none => exact .nil s
  | some r =>
    have hw : Reads (r.after.1 ++ r.target.text) [.word r.target.value] s :=
      (reads_blanks r.after _).append (reads_word r.target hs)
    have hg : (r.after.1 ++ r.target.text ++ s).head? ≠ some Byte.greater := by
      rw [List.append_assoc]
      exact head?_blanks_word r.after r.target s rfl rfl
    exact (reads_blanks r.before _).append ((reads_sign r.mode hg).append hw)

theorem delimited_ending (e : Ending) (s : Bytes) :
    Delimited (e.text ++ Byte.newline :: s) := by
  cases e with
  | plain b => exact delimited_blanks b ⟨_, _, rfl, rfl⟩
  | comment b v hv =>
    rw [Ending.text, List.append_assoc]
    exact delimited_of_blank b.2

theorem reads_ending (e : Ending) (s : Bytes) : Reads e.text [] (Byte.newline :: s) := by
  cases e with
  | plain b => exact reads_blanks b _
  | comment b v hv => exact (reads_blanks ⟨b.1, b.2.2⟩ _).append (reads_comment hv s)

theorem line_text (l : WrittenLine) (f : Bool) (s : Bytes) :
    line f (l.text ++ s) = some (CommandLine.pipelineTokens
      (l.first.value :: l.stages.map fun g => g.command.value)
      (l.redirect.map WrittenRedirect.value), s) := by
  have he := delimited_ending l.ending s
  have hr := delimited_redirect l.redirect he
  have hg := delimited_stages l.stages hr
  simp only [WrittenLine.text, List.append_assoc, List.singleton_append]
  rw [reads_blanks, reads_command _ hg, reads_stages _ hr, reads_redirect _ he, reads_ending,
    line_newline, CommandLine.pipelineTokens_cons]
  simp [prepend, List.flatMap_map]

end Lexer

def WrittenWord.ofBytes (v : Bytes) : WrittenWord where
  segments := [.double v]
  present := ⟨_, List.mem_singleton_self _, trivial⟩
  unhashed := by
    intro h
    exact absurd (Option.some.inj h) (by decide)

def Gap.blank : Gap := ⟨[Byte.space], by simp, by simp [Byte.isBlank]⟩

def Blanks.none : Blanks := ⟨[], by simp⟩

def WrittenCommand.ofCommand (c : Command) : WrittenCommand :=
  ⟨.ofBytes c.name, c.arguments.map fun v => (.blank, .ofBytes v)⟩

def WrittenLine.ofPipeline (c : Command) (cs : List Command) (r : Option Redirect) :
    WrittenLine where
  lead := .none
  first := .ofCommand c
  stages := cs.map fun d => ⟨.none, .none, .ofCommand d⟩
  redirect := r.map fun r => ⟨.none, r.mode, .none, .ofBytes r.target⟩
  ending := .plain .none

theorem WrittenWord.value_ofBytes (v : Bytes) : (ofBytes v).value = v := by
  simp [value, ofBytes, Segment.value]

theorem WrittenCommand.value_ofCommand (c : Command) : (ofCommand c).value = c := by
  simp [value, ofCommand, WrittenWord.value_ofBytes, Function.comp_def]

theorem WrittenLine.value_ofPipeline (c : Command) (cs : List Command) (r : Option Redirect) :
    (ofPipeline c cs r).value = .pipeline (c :: cs) r := by
  have hr : (r.map fun r => (⟨.none, r.mode, .none, .ofBytes r.target⟩ : WrittenRedirect)).map
      WrittenRedirect.value = r := by
    cases r <;> simp [WrittenRedirect.value, WrittenWord.value_ofBytes]
  simp [value, ofPipeline, WrittenCommand.value_ofCommand, hr, Function.comp_def]

/-- However lines are written, popping the text gives them out again, all of them and nothing else,
before and after the end of the input; and every line of commands joined by pipes, with any byte
strings as words, can be written. -/
theorem popAll_flatMap_text (ls : List WrittenLine) :
    (Parser.empty.feed (ls.flatMap WrittenLine.text)).popAll =
        (ls.map fun l => .ok l.value, Parser.empty) ∧
      (Parser.empty.feed (ls.flatMap WrittenLine.text)).finish.popAll =
        (ls.map fun l => .ok l.value, Parser.empty.finish) ∧
      ∀ c cs r, ∃ l : WrittenLine, l.value = .pipeline (c :: cs) r := by
  have key : ∀ f, Parser.popAll ⟨ls.flatMap WrittenLine.text, f⟩ =
      (ls.map fun l => .ok l.value, ⟨[], f⟩) := by
    intro f
    induction ls with
    | nil => exact Parser.popAll_nil f
    | cons l ls ih =>
      have ho : CommandLine.outcome? (CommandLine.pipelineTokens
          (l.first.value :: l.stages.map fun g => g.command.value)
          (l.redirect.map WrittenRedirect.value)) = some (.ok l.value) := by
        rw [CommandLine.outcome?, CommandLine.ofTokens?_pipelineTokens (by simp)]
        rfl
      rw [List.flatMap_cons, Parser.popAll_of_line (Lexer.line_text l f _), ih, ho]
      rfl
  exact ⟨key false, key true, fun c cs r => ⟨_, WrittenLine.value_ofPipeline c cs r⟩⟩

end PipeShell
