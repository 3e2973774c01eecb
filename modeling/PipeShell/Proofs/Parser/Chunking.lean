import PipeShell.Proofs.Parser.Popping
import PipeShell.Proofs.Token.Transducer

/-! How the input is cut and when the parser is asked for lines makes no difference. What one pop
gives out and leaves behind is, whatever follows, the beginning of what popping everything later
would give (`popAll_append_of_pop`); the rest is induction over the requests. Main statement: a
parser fed in pieces and popped in between gives out, in order, what a parser fed at once gives out
(`serve_schedule_popAll`). -/
namespace PipeShell.Parser
variable {p q : Parser} {rs : List Request}

theorem popAll_append_of_pop {b : Bytes} {x : Option (Except ParseError CommandLine)}
    (h : pop ⟨b, false⟩ = (x, q)) (f : Bool) (t : Bytes) :
    q.finished = false ∧ popAll ⟨b ++ t, f⟩ =
      (x.toList ++ (popAll ⟨q.buffer ++ t, f⟩).1, (popAll ⟨q.buffer ++ t, f⟩).2) := by
  cases hl : Lexer.line false b with
  | none =>
    rw [pop_of_no_line hl] at h
    obtain ⟨rfl, rfl⟩ := Prod.mk.inj h
    simp
  | some l =>
    obtain ⟨ts, r⟩ := l
    rw [popAll_of_line (Lexer.line_append hl f t)]
    rw [pop_of_line hl] at h
    cases ho : CommandLine.outcome? ts with
    | some y =>
      rw [ho] at h
      obtain ⟨rfl, rfl⟩ := Prod.mk.inj h
      simp
    | none =>
      -- a line without a command: the pop goes on with the line after it
      rw [ho] at h
      have hlt := Lexer.line_length_lt hl
      simp only [Option.toList_none, List.nil_append]
      exact popAll_append_of_pop h f t
termination_by b.length

theorem popAll_append (b : Bytes) (f : Bool) (t : Bytes) :
    (popAll ⟨b, false⟩).2.finished = false ∧ popAll ⟨b ++ t, f⟩ =
      ((popAll ⟨b, false⟩).1 ++ (popAll ⟨(popAll ⟨b, false⟩).2.buffer ++ t, f⟩).1,
        (popAll ⟨(popAll ⟨b, false⟩).2.buffer ++ t, f⟩).2) := by
  match h : pop ⟨b, false⟩ with
  | (none, q) =>
    rw [popAll_of_pop_none h]
    exact popAll_append_of_pop h f t
  | (some x, ⟨c, g⟩) =>
    have hlt := pop_length h
    obtain ⟨rfl, ha⟩ := popAll_append_of_pop h f t
    obtain ⟨hf, hi⟩ := popAll_append c f t
    rw [popAll_of_pop_some h, ha]
    exact ⟨hf, by simp [hi]⟩
termination_by b.length

theorem popAll_append_of_serve {xs : List (Except ParseError CommandLine)}
    (hp : p.finished = false) (hrs : .finish ∉ rs) (h : p.serve rs = (xs, q)) (f : Bool)
    (t : Bytes) :
    q.finished = false ∧ popAll ⟨p.buffer ++ rs.flatMap Request.bytes ++ t, f⟩ =
      (xs ++ (popAll ⟨q.buffer ++ t, f⟩).1, (popAll ⟨q.buffer ++ t, f⟩).2) := by
  induction rs generalizing p xs with
  | nil =>
    obtain ⟨rfl, rfl⟩ := Prod.mk.inj h
    simp [hp]
  | cons r rs ih =>
    have hrs' : .finish ∉ rs := fun hm => hrs (List.mem_cons_of_mem r hm)
    cases r with
    | feed s =>
      have := ih (p := p.feed s) hp hrs' h
      simpa [feed, Request.bytes] using this
    | finish => simp at hrs
    | pop =>
      obtain ⟨b, _⟩ := p
      subst hp
      obtain ⟨hf, ha⟩ := popAll_append_of_pop rfl f (rs.flatMap Request.bytes ++ t) (b := b)
      obtain ⟨rfl, rfl⟩ := Prod.mk.inj h
      obtain ⟨hq, hi⟩ := ih hf hrs' rfl
      refine ⟨hq, ?_⟩
      rw [List.append_assoc] at hi
      simp [Request.bytes, ha, hi]

/-- The requests of a reader that feeds pieces and pops a number of times after each. -/
def schedule (chunks : List (Bytes × Nat)) : List Request :=
  chunks.flatMap fun (s, n) => .feed s :: List.replicate n .pop

def text (chunks : List (Bytes × Nat)) : Bytes := (chunks.map Prod.fst).flatten

theorem finish_notMem_schedule (chunks : List (Bytes × Nat)) : .finish ∉ schedule chunks := by
  simp [schedule]

theorem bytes_schedule (chunks : List (Bytes × Nat)) :
    (schedule chunks).flatMap Request.bytes = text chunks := by
  induction chunks with
  | nil => rfl
  | cons c chunks ih =>
    obtain ⟨s, n⟩ := c
    have hn : (List.replicate n Request.pop).flatMap Request.bytes = [] := by
      simp [List.flatMap_replicate, Request.bytes]
    rw [schedule] at ih
    simp [schedule, text, Request.bytes, hn, ih]

theorem popAll_text_append (chunks : List (Bytes × Nat)) (f : Bool) (t : Bytes) :
    (empty.serve (schedule chunks)).2.finished = false ∧ popAll ⟨text chunks ++ t, f⟩ =
      let q := (empty.serve (schedule chunks)).2
      ((empty.serve (schedule chunks)).1 ++ (popAll ⟨q.buffer ++ t, f⟩).1,
        (popAll ⟨q.buffer ++ t, f⟩).2) := by
  rw [← bytes_schedule]
  exact popAll_append_of_serve rfl (finish_notMem_schedule chunks) rfl f t

/-- However a text is cut into pieces and however often the parser is popped after each, it gives
out the same lines and errors, in the same order, as if it had been fed the text at once: both while
the input goes on and when it has ended. -/
theorem serve_schedule_popAll (chunks : List (Bytes × Nat)) :
    let x := empty.serve (schedule chunks)
    (x.1 ++ x.2.popAll.1, x.2.popAll.2) = (empty.feed (text chunks)).popAll ∧
      (x.1 ++ x.2.finish.popAll.1, x.2.finish.popAll.2) =
        (empty.feed (text chunks)).finish.popAll := by
  obtain ⟨hx, h⟩ := popAll_text_append chunks false []
  have h' := (popAll_text_append chunks true []).2
  simp only [List.append_nil] at h h'
  generalize empty.serve (schedule chunks) = x at hx h h' ⊢
  obtain ⟨xs, b, g⟩ := x
  subst hx
  exact ⟨h.symm, h'.symm⟩

end PipeShell.Parser
