import PipeShell.Proofs.CommandLine.Rendering
import PipeShell.Proofs.Parser.Completion

/-! Lines by themselves. A line ends where a parser that has been fed all up to there, and popped,
has nothing left. Main statement: a text that is cut at all its line ends gives out, segment by
segment, what each segment gives out alone; so what a line gives out depends neither on what stands
before it nor on what follows, a line with an error costs itself and no more, and lines of blanks
and comments can be left out (`results_segments`). -/
namespace PipeShell

/-- The pieces of `s` between ascending positions, one more than there are positions. -/
def Bytes.cutAt (s : Bytes) (start : Nat) : List Nat → List Bytes
  | [] => [s.drop start]
  | p :: ps => (s.take p).drop start :: cutAt s p ps

theorem Bytes.cutAt_append (g s : Bytes) (start : Nat) (ps : List Nat) :
    cutAt (g ++ s) (g.length + start) (ps.map (g.length + ·)) = cutAt s start ps := by
  induction ps generalizing start with
  | nil => simp [cutAt]
  | cons p ps ih => simp [cutAt, ih, List.drop_append, List.take_append]

namespace Lexer

variable {g r s : Bytes} {ts : List Token}

theorem line_split (h : line false s = some (ts, r)) :
    ∃ g, s = g ++ r ∧ line false g = some (ts, []) := by
  simp only [line_eq_scan] at h ⊢
  generalize Scan.start = σ at h ⊢
  induction s generalizing σ with
  | nil => simp [Scan.line] at h
  | cons c s ih =>
    rw [Scan.line] at h
    split at h
    · rename_i he
      obtain ⟨rfl, rfl⟩ := Prod.mk.inj (Option.some.inj h)
      exact ⟨[c], rfl, by simp [Scan.line, he]⟩
    · rename_i he
      obtain ⟨g, rfl, hg⟩ := ih _ h
      exact ⟨c :: g, rfl, by simpa [Scan.line, he] using hg⟩

theorem line_prefix (h : line false (g ++ r) = some (ts, [])) (hr : r ≠ []) :
    line false g = none := by
  refine Option.eq_none_iff_forall_ne_some.2 fun ⟨us, r'⟩ hg => ?_
  rw [line_append hg false r] at h
  exact hr (List.append_eq_nil_iff.1 (Prod.mk.inj (Option.some.inj h)).2).2

end Lexer

namespace Parser

/-- Whether a parser that has been fed `s` and popped has nothing left. -/
def endsLine (s : Bytes) : Bool := (empty.feed s).popAll.2.buffer == []

def lineEnds (s : Bytes) : List Nat :=
  (List.range (s.length + 1)).filter fun p => endsLine (s.take p)

def segments (s : Bytes) : List Bytes := s.cutAt 0 (lineEnds s)

/-- A line with its end, and no other line before it or after it. -/
structure IsLine (g : Bytes) : Prop where
  ne_nil : g ≠ []
  ends : endsLine g = true
  one : ∀ p, 0 < p → p < g.length → endsLine (g.take p) = false

/-- Blanks, and perhaps a comment. -/
def IsSilent (g : Bytes) : Prop :=
  ∃ (b : Blanks) (v : Bytes), Byte.newline ∉ v ∧ (g = b.1 ∨ g = b.1 ++ Byte.hash :: v)

variable {f : Bool} {b g r s x y : Bytes} {ts : List Token}

theorem endsLine_iff : endsLine s = true ↔ (popAll ⟨s, false⟩).2.buffer = [] := beq_iff_eq

theorem endsLine_nil : endsLine [] = true := by
  rw [endsLine_iff, popAll_nil]

theorem endsLine_append (h : Lexer.line false g = some (ts, [])) (s : Bytes) :
    endsLine (g ++ s) = endsLine s := by
  rw [Bool.eq_iff_iff, endsLine_iff, endsLine_iff, popAll_of_line (Lexer.line_append h false s)]
  rfl

theorem endsLine_of_no_line (h : Lexer.line false s = none) (hs : s ≠ []) :
    endsLine s = false := by
  rw [Bool.eq_false_iff, ne_eq, endsLine_iff, popAll_of_no_line h]
  exact hs

theorem endsLine_take (h : Lexer.line false g = some (ts, [])) {p : Nat} (hp : 0 < p)
    (hlt : p < g.length) : endsLine (g.take p) = false := by
  rw [← List.take_append_drop p g] at h
  refine endsLine_of_no_line (Lexer.line_prefix h (by simpa using hlt)) ?_
  simp only [ne_eq, List.take_eq_nil_iff, not_or]
  exact ⟨Nat.ne_of_gt hp, fun hg => by simp [hg] at hlt⟩

theorem isLine_iff : IsLine g ↔ ∃ ts, Lexer.line false g = some (ts, []) := by
  constructor
  · rintro ⟨hne, hends, hone⟩
    cases hl : Lexer.line false g with
    | none =>
      rw [endsLine_of_no_line hl hne] at hends
      cases hends
    | some x =>
      obtain ⟨ts, r⟩ := x
      refine ⟨ts, ?_⟩
      by_cases hr : r = []
      · rw [hr]
      -- otherwise the line ends before `r`
      obtain ⟨g, rfl, hg⟩ := Lexer.line_split hl
      have hlt := Lexer.line_length_lt hg
      have := hone g.length hlt (by simpa [List.length_pos_iff] using hr)
      rw [List.take_left, ← List.append_nil g, endsLine_append hg, endsLine_nil] at this
      cases this
  · rintro ⟨ts, hg⟩
    refine ⟨?_, ?_, fun p hp hlt => endsLine_take hg hp hlt⟩
    · exact List.length_pos_iff.1 (Lexer.line_length_lt hg)
    · rw [← List.append_nil g, endsLine_append hg, endsLine_nil]

theorem filter_range_eq_zero {P : Nat → Bool} {n : Nat} (h0 : P 0 = true)
    (h : ∀ p, 0 < p → p < n + 1 → P p = false) : (List.range (n + 1)).filter P = [0] := by
  induction n with
  | zero => simp [h0]
  | succ n ih =>
    rw [List.range_succ, List.filter_append, ih fun p hp hlt => h p hp (by omega)]
    simp [h (n + 1) (by omega) (by omega)]

theorem lineEnds_of_no_line (h : Lexer.line false s = none) : lineEnds s = [0] := by
  refine filter_range_eq_zero endsLine_nil fun p hp hlt => ?_
  refine endsLine_of_no_line (Option.eq_none_iff_forall_ne_some.2 fun ⟨ts, r⟩ ht => ?_) ?_
  · have := Lexer.line_append ht false (s.drop p)
    rw [List.take_append_drop, h] at this
    cases this
  · simp only [ne_eq, List.take_eq_nil_iff, not_or]
    refine ⟨Nat.ne_of_gt hp, fun hs => ?_⟩
    simp [hs] at hlt
    omega

theorem lineEnds_append (h : Lexer.line false g = some (ts, [])) (s : Bytes) :
    lineEnds (g ++ s) = 0 :: (lineEnds s).map (g.length + ·) := by
  have hpos := Lexer.line_length_lt h
  have hfirst : (List.range g.length).filter (fun p => endsLine ((g ++ s).take p)) = [0] := by
    obtain ⟨n, hn⟩ := Nat.exists_eq_succ_of_ne_zero (Nat.ne_of_gt hpos)
    rw [hn]
    refine filter_range_eq_zero endsLine_nil fun p hp hlt => ?_
    rw [List.take_append_of_le_length (by omega)]
    exact endsLine_take h hp (by omega)
  rw [lineEnds, List.length_append, Nat.add_assoc, List.range_add, List.filter_append, hfirst,
    List.filter_map, lineEnds, List.singleton_append]
  congr 3
  funext p
  rw [Function.comp, List.take_length_add_append, endsLine_append h]

theorem exists_lineEnds_eq (s : Bytes) : ∃ ps, lineEnds s = 0 :: ps := by
  rw [lineEnds, List.range_succ_eq_map]
  exact ⟨_, List.filter_cons_of_pos endsLine_nil⟩

theorem segments_append (h : Lexer.line false g = some (ts, [])) (s : Bytes) :
    ∃ gs, segments s = [] :: gs ∧ segments (g ++ s) = [] :: g :: gs := by
  obtain ⟨ps, hps⟩ := exists_lineEnds_eq s
  refine ⟨s.cutAt 0 ps, ?_, ?_⟩
  · rw [segments, hps]
    rfl
  · rw [segments, lineEnds_append h, hps, ← Bytes.cutAt_append g s 0 ps]
    simp [Bytes.cutAt]

theorem results_append_of_line (h : Lexer.line false g = some (ts, [])) (s : Bytes) :
    results (g ++ s) = (CommandLine.outcome? ts).toList ++ results s :=
  congrArg Prod.fst (popAll_of_line (Lexer.line_append h true s))

theorem parseLine_of_line (h : Lexer.line true s = some (ts, [])) :
    parseLine s = CommandLine.outcome? ts := by
  show (pop ⟨s, true⟩).1 = _
  rw [pop_of_line h, pop_nil]
  split
  · rename_i x hx
    rw [hx]
  · rename_i hx
    rw [hx]

theorem parseLine_nil : parseLine [] = none := congrArg Prod.fst (pop_nil true)

theorem results_append_of_isLine (h : IsLine g) (s : Bytes) :
    results (g ++ s) = (parseLine g).toList ++ results s := by
  obtain ⟨ts, hg⟩ := isLine_iff.1 h
  have hline := Lexer.line_append hg true []
  rw [List.append_nil] at hline
  rw [results_append_of_line hg, parseLine_of_line hline]

theorem line_of_no_line (h : Lexer.line false s = none) :
    ∃ ts, Lexer.line true s = some (ts, []) := by
  rw [Lexer.line_eq_scan] at h
  obtain ⟨-, hc⟩ := Transcript.foldl_read_of_no_line [] h
  exact ⟨_, (Lexer.line_eq_scan true s).trans hc⟩

theorem segments_cut (s : Bytes) :
    (segments s).flatten = s ∧ results s = (segments s).filterMap parseLine := by
  cases hl : Lexer.line false s with
  | none =>
    -- the text is one line that has not ended
    obtain ⟨ts, ht⟩ := line_of_no_line hl
    have hresults : results s = (parseLine s).toList := by
      rw [parseLine_of_line ht]
      exact (congrArg Prod.fst (popAll_of_line ht)).trans (by simp [popAll_nil])
    rw [segments, lineEnds_of_no_line hl, hresults]
    cases hs : parseLine s <;> simp [Bytes.cutAt, parseLine_nil, hs]
  | some x =>
    obtain ⟨ts, r⟩ := x
    obtain ⟨g, rfl, hg⟩ := Lexer.line_split hl
    have hlt := Lexer.line_length_lt hl
    obtain ⟨hflat, hresults⟩ := segments_cut r
    obtain ⟨gs, hr, hgr⟩ := segments_append hg r
    rw [hr] at hflat hresults
    rw [hgr, results_append_of_isLine (isLine_iff.2 ⟨ts, hg⟩), hresults]
    refine ⟨by simpa using hflat, ?_⟩
    cases hp : parseLine g <;> simp [parseLine_nil, hp]
termination_by s.length

theorem results_append (hx : endsLine x = true) (y : Bytes) :
    results (x ++ y) = results x ++ results y := by
  rw [endsLine_iff] at hx
  have h := fun t => congrArg Prod.fst (popAll_append x true t).2
  rw [hx] at h
  have hxs : results x = (popAll ⟨x, false⟩).1 := by
    have := h []
    rw [List.append_nil, List.nil_append, popAll_nil] at this
    exact this.trans (List.append_nil _)
  rw [hxs]
  exact h y

theorem pop_append_of_isLine (h : IsLine g) {e : ParseError} (he : parseLine g = some (.error e))
    (f : Bool) (y : Bytes) : pop ⟨g ++ y, f⟩ = (some (.error e), ⟨y, f⟩) := by
  obtain ⟨ts, hg⟩ := isLine_iff.1 h
  have hline := Lexer.line_append hg true []
  rw [List.append_nil] at hline
  rw [parseLine_of_line hline] at he
  rw [pop_of_line (Lexer.line_append hg f y), he]
  rfl

theorem IsSilent.line_newline (h : IsSilent g) (f : Bool) (y : Bytes) :
    Lexer.line f (g ++ Byte.newline :: y) = some ([], y) := by
  obtain ⟨b, v, hv, rfl | rfl⟩ := h
  · rw [Lexer.reads_blanks b, Lexer.line_newline]
    rfl
  · rw [((Lexer.reads_blanks b _).append (Lexer.reads_comment hv y)) f, Lexer.line_newline]
    rfl

theorem IsSilent.results_eq_nil (h : IsSilent g) : results g = [] := by
  have hline : Lexer.line true g = some ([], []) := by
    obtain ⟨b, v, hv, rfl | rfl⟩ := h
    · rw [← List.append_nil b.1, Lexer.reads_blanks b, Lexer.line]
      rfl
    · have hd : v.dropWhile (· != Byte.newline) = [] := by
        rw [← List.append_nil v, List.dropWhile_append_of_pos]
        · rfl
        · intro c hc
          simpa using fun h : c = Byte.newline => hv (h ▸ hc)
      have hhash : Lexer.line true (Byte.hash :: v) = some ([], []) := by
        rw [Lexer.line, hd, Lexer.line]
        rfl
      rw [Lexer.reads_blanks b, hhash]
      rfl
  have := congrArg Prod.fst (popAll_of_line hline)
  rw [popAll_nil] at this
  exact this

/-- A text gives out what its segments give out alone, in order, and what a line between others
gives out does not depend on these. A line with an error is taken as a whole, together with the
error, and a line of blanks and comments makes no difference, be it at the end of the input without
its newline. -/
theorem results_segments (s : Bytes) :
    (segments s).flatten = s ∧ results s = (segments s).filterMap parseLine ∧
    (∀ x g y, endsLine x = true → IsLine g →
      results (x ++ (g ++ y)) = results x ++ (parseLine g).toList ++ results y) ∧
    (∀ g e f y, IsLine g → parseLine g = some (.error e) →
      pop ⟨g ++ y, f⟩ = (some (.error e), ⟨y, f⟩)) ∧
    ∀ x g y, endsLine x = true → IsSilent g →
      results (x ++ (g ++ Byte.newline :: y)) = results (x ++ y) ∧
        results (x ++ g) = results x := by
  obtain ⟨hflat, hresults⟩ := segments_cut s
  refine ⟨hflat, hresults, fun x g y hx hg => ?_, fun g e f y hg he => ?_, fun x g y hx hg => ?_⟩
  · rw [results_append hx, results_append_of_isLine hg, List.append_assoc]
  · exact pop_append_of_isLine hg he f y
  · rw [results_append hx, results_append hx, results_append hx, hg.results_eq_nil,
      List.append_nil]
    refine ⟨?_, rfl⟩
    have := congrArg Prod.fst (popAll_of_line (hg.line_newline true y))
    exact congrArg (results x ++ ·) this

/-- A line with an error that spans two rows, between two others, and a comment with an open
quote. -/
theorem results_segments_between :
    let g := Bytes.ofAscii "|'a\nb'\\\n>\n"
    IsLine g ∧ parseLine g = some (.error .pipeAtStart) ∧
    results (Bytes.ofAscii "cd\n" ++ (g ++ Bytes.ofAscii "ls")) =
      results (Bytes.ofAscii "cd\n") ++ [.error .pipeAtStart] ++ results (Bytes.ofAscii "ls") ∧
    pop ⟨g ++ Bytes.ofAscii "ls", false⟩ =
      (some (.error .pipeAtStart), ⟨Bytes.ofAscii "ls", false⟩) ∧
    results (Bytes.ofAscii "cd\n" ++ (Bytes.ofAscii " #'|" ++ Byte.newline :: Bytes.ofAscii "ls")) =
      results (Bytes.ofAscii "cd\n" ++ Bytes.ofAscii "ls") := by
  intro g
  have hline : Lexer.line false g = some ([.pipe, .word (Bytes.ofAscii "a\nb"),
      .redirect .truncate], []) := by
    rw [Lexer.line_eq_scan]
    rfl
  have hg : IsLine g := isLine_iff.2 ⟨_, hline⟩
  have herror : parseLine g = some (.error .pipeAtStart) := by
    have := Lexer.line_append hline true []
    rw [List.append_nil] at this
    exact parseLine_of_line this
  have hcd : endsLine (Bytes.ofAscii "cd\n") = true := by
    refine (isLine_iff.2 ⟨[.word (Bytes.ofAscii "cd")], ?_⟩).ends
    rw [Lexer.line_eq_scan]
    rfl
  have hsilent : IsSilent (Bytes.ofAscii " #'|") :=
    ⟨⟨[Byte.space], by simp [Byte.isBlank]⟩, Bytes.ofAscii "'|", by decide, .inr rfl⟩
  obtain ⟨-, -, hbetween, hpop, hskip⟩ := results_segments []
  refine ⟨hg, herror, ?_, hpop _ _ _ _ hg herror, (hskip _ _ _ hcd hsilent).1⟩
  have := hbetween _ _ (Bytes.ofAscii "ls") hcd hg
  rwa [herror] at this

end Parser

end PipeShell
