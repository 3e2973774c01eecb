import PipeShell.Proofs.Parser.Completion
import PipeShell.Proofs.Parser.Cursor
import PipeShell.Proofs.Parser.Segments

/-! What a parser keeps, and what it gives out for it. Every line that is dropped ends with a
newline, or it is all that was left of a finished input; so the buffer is an end of what was fed,
from where a line begins, and each result is paid for with a newline, but for one. Main statement:
whatever is asked of a parser, it stays within its buffer, comes to an end, and loses nothing
(`serve_safe_lossless_bounded`). -/
namespace PipeShell

theorem Mode.eq_newline_of_endsAt {m : Mode} {c : UInt8} (h : m.endsAt c = true) :
    c = Byte.newline := by
  cases m <;> simp_all [endsAt]

theorem Scan.line_eq_append {σ : Scan} {s r : Bytes} {ts : List Token}
    (h : σ.line false s = some (ts, r)) : ∃ u, s = u ++ Byte.newline :: r := by
  induction s generalizing σ with
  | nil => simp [line] at h
  | cons c s ih =>
    rw [line] at h
    split at h
    · rename_i he
      obtain ⟨-, rfl⟩ := Prod.mk.inj (Option.some.inj h)
      exact ⟨[], by rw [Mode.eq_newline_of_endsAt he, List.nil_append]⟩
    · obtain ⟨u, rfl⟩ := ih h
      exact ⟨c :: u, rfl⟩

namespace Parser

def fed (rs : List Request) : Bytes := rs.flatMap Request.bytes

/-- Where a line begins in what requests feed: at the beginning, behind a line with its newline,
and, if the input is finished and popped when what is left of it is a line without a newline, behind
that line. -/
inductive BeginsLine (rs : List Request) : Nat → Prop
  | zero : BeginsLine rs 0
  | line {n : Nat} {g : Bytes} (h : BeginsLine rs n) (hg : IsLine g)
    (hs : g <+: (fed rs).drop n) : BeginsLine rs (n + g.length)
  | last {n : Nat} {rs' : List Request} (h : BeginsLine rs n) (hrs : rs' ++ [.pop] <+: rs)
    (hf : .finish ∈ rs') (hn : n < (fed rs').length) (ho : lineEnds ((fed rs').drop n) = [0]) :
    BeginsLine rs (fed rs').length

/-- What was fed, from where a line begins on. -/
def IsRest (rs : List Request) (b : Bytes) : Prop :=
  ∃ n, BeginsLine rs n ∧ b = (fed rs).drop n

/-- How much can be given out for a buffer. -/
def budget (b : Bytes) : Nat := b.count Byte.newline + if b = [] then 0 else 1

variable {p q : Parser} {rs : List Request} {b g r : Bytes} {ts : List Token}

theorem fed_append (rs rs' : List Request) : fed (rs ++ rs') = fed rs ++ fed rs' :=
  List.flatMap_append

theorem fed_concat_pop (rs : List Request) : fed (rs ++ [.pop]) = fed rs := by
  simp [fed, Request.bytes]

theorem DropsLine.split (h : DropsLine p q) :
    (∃ g, IsLine g ∧ p.buffer = g ++ q.buffer ∧ Byte.newline ∈ g) ∨
      p.finished = true ∧ lineEnds p.buffer = [0] ∧ q.buffer = [] := by
  obtain ⟨ts, hline⟩ := h.line
  cases hl : Lexer.line false p.buffer with
  | some x =>
    left
    obtain ⟨us, r⟩ := x
    have hr := Lexer.line_append hl p.finished []
    rw [List.append_nil, List.append_nil, hline] at hr
    obtain ⟨-, rfl⟩ := Prod.mk.inj (Option.some.inj hr)
    obtain ⟨g, hg, hend⟩ := Lexer.line_split hl
    obtain ⟨u, hu⟩ := Scan.line_eq_append ((Lexer.line_eq_scan _ _).symm.trans hend)
    exact ⟨g, isLine_iff.2 ⟨us, hend⟩, hg, by simp [hu]⟩
  | none =>
    right
    cases hf : p.finished with
    | false =>
      rw [hf, hl] at hline
      cases hline
    | true =>
      obtain ⟨us, hu⟩ := line_of_no_line hl
      rw [hf, hu] at hline
      obtain ⟨-, hq⟩ := Prod.mk.inj (Option.some.inj hline)
      exact ⟨rfl, lineEnds_of_no_line hl, hq.symm⟩

theorem DropsLine.budget_lt (h : DropsLine p q) : budget q.buffer < budget p.buffer := by
  obtain ⟨g, -, hg, hn⟩ | ⟨-, -, hq⟩ := h.split
  · have := List.count_pos_iff.2 hn
    simp only [budget, if_neg h.ne_nil]
    rw [hg, List.count_append]
    split <;> omega
  · simp [budget, hq, h.ne_nil]

theorem transGen_dropsLine_of_pop {x : Except ParseError CommandLine} (h : p.pop = (some x, q)) :
    Relation.TransGen DropsLine p q := by
  fun_induction pop p with
  | case1 => cases h
  | case2 => cases h
  | case3 p hp ts r hl e _ =>
    obtain ⟨-, rfl⟩ := Prod.mk.inj h
    exact .single ⟨hp, ⟨ts, hl⟩, rfl⟩
  | case4 p hp ts r hl l _ =>
    obtain ⟨-, rfl⟩ := Prod.mk.inj h
    exact .single ⟨hp, ⟨ts, hl⟩, rfl⟩
  | case5 p hp ts r hl _ ih =>
    have hd : DropsLine p { p with buffer := r } := ⟨hp, ⟨ts, hl⟩, rfl⟩
    exact .head hd (ih h)

theorem reflTransGen_dropsLine_pop (p : Parser) : Relation.ReflTransGen DropsLine p p.pop.2 := by
  fun_induction pop p with
  | case1 | case2 => exact .refl
  | case3 p hp ts r hl | case4 p hp ts r hl => exact .single ⟨hp, ⟨ts, hl⟩, rfl⟩
  | case5 p hp ts r hl _ ih =>
    have hd : DropsLine p { p with buffer := r } := ⟨hp, ⟨ts, hl⟩, rfl⟩
    exact .head hd ih

theorem pop_of_pop_none (h : p.pop = (none, q)) : q.pop = (none, q) := by
  fun_induction pop p with
  | case1 p hp =>
    obtain ⟨-, rfl⟩ := Prod.mk.inj h
    rw [pop, dif_pos hp]
  | case2 p hp hl =>
    obtain ⟨-, rfl⟩ := Prod.mk.inj h
    exact pop_of_no_line hl
  | case3 => cases h
  | case4 => cases h
  | case5 p hp ts r hl _ ih => exact ih h

theorem serve_replicate_pop (h : p.pop = (none, p)) (n : Nat) :
    p.serve (List.replicate n .pop) = ([], p) := by
  induction n with
  | zero => rfl
  | succ n ih => simp [List.replicate_succ, serve, h, ih]

theorem budget_le_of_reflTransGen (h : Relation.ReflTransGen DropsLine p q) :
    budget q.buffer ≤ budget p.buffer := by
  induction h with
  | refl => exact Nat.le_refl _
  | tail _ hd ih => exact Nat.le_trans (Nat.le_of_lt hd.budget_lt) ih

theorem budget_lt_of_transGen (h : Relation.TransGen DropsLine p q) :
    budget q.buffer < budget p.buffer := by
  obtain ⟨p', hd, h⟩ := Relation.TransGen.head'_iff.1 h
  exact Nat.lt_of_le_of_lt (budget_le_of_reflTransGen h) hd.budget_lt

theorem length_pop_add_budget_le (p : Parser) :
    p.pop.1.toList.length + budget p.pop.2.buffer ≤ budget p.buffer := by
  cases h : p.pop with
  | mk x q =>
    cases x with
    | none =>
      have := budget_le_of_reflTransGen (reflTransGen_dropsLine_pop p)
      rw [h] at this
      simpa using this
    | some x =>
      have := budget_lt_of_transGen (transGen_dropsLine_of_pop h)
      simp only [Option.toList_some, List.length_singleton]
      omega

theorem length_serve_le (hrs : ∀ s, .feed s ∉ rs) : (p.serve rs).1.length ≤ budget p.buffer := by
  induction rs generalizing p with
  | nil => exact Nat.zero_le _
  | cons r rs ih =>
    have ih := fun p => ih (p := p) fun s hs => hrs s (List.mem_cons_of_mem r hs)
    cases r with
    | feed s => exact absurd List.mem_cons_self (hrs s)
    | finish => exact ih p.finish
    | pop =>
      have := ih p.pop.2
      have := length_pop_add_budget_le p
      simp only [serve, List.length_append]
      omega

theorem budget_le (b : Bytes) : budget b ≤ b.count Byte.newline + 1 := by
  unfold budget
  split <;> omega

theorem BeginsLine.le_length {n : Nat} (h : BeginsLine rs n) : n ≤ (fed rs).length := by
  cases h with
  | zero => exact Nat.zero_le _
  | line _ hg hs =>
    have hlen := hs.length_le
    have hpos := List.length_pos_iff.2 hg.ne_nil
    rw [List.length_drop] at hlen
    omega
  | last _ hrs =>
    obtain ⟨t, rfl⟩ := hrs
    simp [fed_append]

theorem BeginsLine.mono {rs' : List Request} {n : Nat} (h : BeginsLine rs n) (hrs : rs <+: rs') :
    BeginsLine rs' n := by
  induction h with
  | zero => exact .zero
  | line _ hg hs ih =>
    refine .line ih hg (hs.trans ?_)
    obtain ⟨t, rfl⟩ := hrs
    rw [fed_append, List.drop_append]
    exact List.prefix_append _ _
  | last _ hr hf hn ho ih => exact .last ih (hr.trans hrs) hf hn ho

structure Holds (rs : List Request) (p : Parser) : Prop where
  rest : IsRest rs p.buffer
  finished : p.finished = true → .finish ∈ rs

theorem holds_empty : Holds [] empty := ⟨⟨0, .zero, rfl⟩, fun h => by cases h⟩

theorem IsRest.append (h : IsRest rs b) (rs' : List Request) :
    IsRest (rs ++ rs') (b ++ fed rs') := by
  obtain ⟨n, hn, rfl⟩ := h
  refine ⟨n, hn.mono (List.prefix_append rs rs'), ?_⟩
  rw [fed_append, List.drop_append_of_le_length hn.le_length]

theorem Holds.dropsLine (h : Holds (rs ++ [.pop]) p) (hd : DropsLine p q) :
    Holds (rs ++ [.pop]) q := by
  refine ⟨?_, fun hq => h.finished (hd.finished.symm.trans hq)⟩
  obtain ⟨n, hn, hb⟩ := h.rest
  obtain ⟨g, hg, hsplit, -⟩ | ⟨hf, ho, hq⟩ := hd.split
  · rw [hb] at hsplit
    refine ⟨n + g.length, hn.line hg ⟨q.buffer, hsplit.symm⟩, ?_⟩
    rw [← List.drop_drop, hsplit, List.drop_left]
  · have hfinish : .finish ∈ rs := by simpa using h.finished hf
    rw [fed_concat_pop] at hb
    have hlt : n < (fed rs).length := by
      have := List.length_pos_iff.2 hd.ne_nil
      rw [hb, List.length_drop] at this
      omega
    refine ⟨(fed rs).length, hn.last List.prefix_rfl hfinish hlt (hb ▸ ho), ?_⟩
    rw [fed_concat_pop, hq, List.drop_length]

theorem Holds.reflTransGen (h : Holds (rs ++ [.pop]) p)
    (hd : Relation.ReflTransGen DropsLine p q) : Holds (rs ++ [.pop]) q := by
  induction hd with
  | refl => exact h
  | tail _ hd ih => exact ih.dropsLine hd

theorem Holds.beforePop (h : Holds rs p) : Holds (rs ++ [.pop]) p := by
  refine ⟨?_, fun hp => List.mem_append_left _ (h.finished hp)⟩
  simpa [fed, Request.bytes] using h.rest.append [.pop]

theorem Holds.serve (h : Holds rs p) (rs' : List Request) :
    Holds (rs ++ rs') (p.serve rs').2 := by
  induction rs' generalizing rs p with
  | nil => simpa [Parser.serve] using h
  | cons r rs' ih =>
    rw [← List.singleton_append, ← List.append_assoc]
    cases r with
    | feed s =>
      refine ih (p := p.feed s) ⟨?_, fun hp => List.mem_append_left _ (h.finished hp)⟩
      simpa [fed, Request.bytes, feed] using h.rest.append [.feed s]
    | finish =>
      refine ih (p := p.finish) ⟨?_, fun _ => by simp⟩
      simpa [fed, Request.bytes, finish] using h.rest.append [.finish]
    | pop => exact ih (h.beforePop.reflTransGen (reflTransGen_dropsLine_pop p))

open Cursor in
/-- Whatever a parser has been asked for before: while it pops, the position stays within the
buffer, nothing faults, and the buffer is what was fed from where a line begins; it comes to an end
after at most five steps a byte. A pop that gives something out makes the buffer shorter, one that
gives nothing out is followed by none that does, and until more is fed there are no more results
than newlines in the buffer, but for one. -/
theorem serve_safe_lossless_bounded (rs : List Request) :
    let p := (empty.serve rs).2
    (∀ n, Move.next^[n] (enter p) ≠ .faults ∧
      ∀ σ, Move.next^[n] (enter p) = .goes σ →
        σ.position ≤ σ.parser.buffer.length ∧ IsRest (rs ++ [.pop]) σ.parser.buffer) ∧
    (∀ n, 5 * p.buffer.length + 3 ≤ n → Move.next^[n] (enter p) = .gives p.pop.1 p.pop.2) ∧
    IsRest rs p.buffer ∧
    (∀ x q, p.pop = (some x, q) → q.buffer.length < p.buffer.length) ∧
    (∀ q, p.pop = (none, q) → ∀ n, q.serve (List.replicate n .pop) = ([], q)) ∧
    ∀ rs', (∀ s, .feed s ∉ rs') → (p.serve rs').1.length ≤ p.buffer.count Byte.newline + 1 := by
  have hp : Holds rs (empty.serve rs).2 := holds_empty.serve rs
  intro p
  refine ⟨fun n => ?_, fun n hn => iterate_next_enter hn, hp.rest, fun x q h => pop_length h,
    fun q h => serve_replicate_pop (pop_of_pop_none h), fun rs' hrs' => ?_⟩
  · have hleads := leads_iterate_next p n
    refine ⟨fun hf => ?_, fun σ hσ => ?_⟩
    · rw [hf] at hleads
      exact hleads
    · rw [hσ] at hleads
      obtain ⟨hsound, hdrops, -⟩ := hleads
      exact ⟨hsound.le, (hp.beforePop.reflTransGen hdrops).rest⟩
  · exact Nat.le_trans (length_serve_le hrs') (budget_le _)

open Cursor in
/-- A comment, a line and an open quote. -/
theorem serve_safe_lossless_bounded_open_quote :
    let rs := [.feed (Bytes.ofAscii "#\nls\n'a")]
    let p := (empty.serve rs).2
    let q : Parser := ⟨Bytes.ofAscii "'a", false⟩
    (∃ σ, Move.next^[4] (enter p) = .goes σ ∧ σ.position ≤ σ.parser.buffer.length ∧
      IsRest (rs ++ [.pop]) σ.parser.buffer) ∧
    Move.next^[43] (enter p) = .gives p.pop.1 q ∧
    q.buffer.length < p.buffer.length ∧
    (empty.serve (rs ++ [.pop])).2 = q ∧ q.serve [.pop, .pop] = ([], q) ∧
    (p.serve [.pop, .finish, .pop]).1.length ≤ 3 := by
  intro rs p q
  have hpop : p.pop = (some (.ok ⟨[.command ⟨Bytes.ofAscii "ls", []⟩], none⟩), q) := by
    have hcomment : Lexer.line false p.buffer = some ([], Bytes.ofAscii "ls\n'a") := by
      rw [Lexer.line_eq_scan]
      rfl
    have hls : Lexer.line false (Bytes.ofAscii "ls\n'a") =
        some ([.word (Bytes.ofAscii "ls")], Bytes.ofAscii "'a") := by
      rw [Lexer.line_eq_scan]
      rfl
    exact (pop_of_line hcomment).trans (pop_of_line hls)
  have hnone : q.pop = (none, q) := pop_of_no_line (by rw [Lexer.line_eq_scan]; rfl)
  have hq : (empty.serve (rs ++ [.pop])).2 = q := congrArg Prod.snd hpop
  obtain ⟨hrun, hstop, -, hshorter, -, hcount⟩ := serve_safe_lossless_bounded rs
  obtain ⟨-, -, -, -, hagain, -⟩ := serve_safe_lossless_bounded (rs ++ [.pop])
  rw [hq] at hagain
  refine ⟨⟨_, rfl, (hrun 4).2 _ rfl⟩, ?_, hshorter _ q hpop, hq, hagain q hnone 2,
    hcount _ (by simp)⟩
  rw [hstop 43 (by decide), hpop]

end Parser

end PipeShell
