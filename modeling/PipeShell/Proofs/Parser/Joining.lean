import PipeShell.Proofs.Parser.Transcript

/-! Joining lines. A backslash and a newline are put into a text at a place where the backslash
takes the newline along. Within a word and within double quotes they leave the scan as it is, and
between tokens they act as a blank does, but for a `#` after them, which starts no comment. Main
statement: the pair makes no difference to what is given out unless a `#` follows it between tokens
or it parts the two bytes of an operator, and in these cases it counts as the backslash alone and as
a blank (`results_join`). So joining is not transparent everywhere (`join_not_transparent`). -/
namespace PipeShell

/-- Whether a backslash that is read next takes the byte after it along. -/
def Mode.joins : Mode → Bool
  | gap | word | double => true
  | escape | single | doubleEscape | comment => false

namespace Scan

/-- Whether the scan stands between tokens and the first byte of `s` would start a comment there or
make an operator of the sign before it. -/
def IsParted (σ : Scan) (s : Bytes) : Prop :=
  σ.mode = .gap ∧ ∃ c ∈ s.head?, c = Byte.hash ∨ σ.current.bind (Token.double? c) ≠ none

def Gapped (σ : Scan) : Prop := σ.mode = .gap → ∀ w, σ.current ≠ some (.word w)

variable {σ : Scan} {ts : List Token} {t : Option Token} {c : UInt8} {s : Bytes}

theorem gapped_start : start.Gapped := fun _ _ h => by cases h

theorem read_eq_gap {m : Mode} (h : (m.read c).1 = .gap) :
    (m.read c).2 = .part ∨ ∃ d, (m.read c).2 = .sign d := by
  cases m <;> grind [Mode.read, Mode.enter]

theorem ofSign_or_double?_ne_word {t' : Token} (h : t.bind (Token.double? c) = some t')
    (w : Bytes) : t' ≠ .word w := by
  obtain ⟨u, -, hu⟩ := Option.bind_eq_some_iff.1 h
  exact (double?_eq_some hu).1 w

theorem gapped_step (σ : Scan) (c : UInt8) : (σ.step c).Gapped := by
  intro hm w hw
  obtain ha | ⟨d, ha⟩ := read_eq_gap hm
  · simp [step, ha, perform] at hw
  · simp only [step, ha, perform] at hw
    split at hw
    · rename_i hd
      exact ofSign_or_double?_ne_word hd w (Option.some.inj hw)
    · exact ofSign_ne_word d w (Option.some.inj hw)

theorem step_settled (hg : ∀ w, t ≠ some (.word w)) (hd : t.bind (Token.double? c) = none) :
    step ⟨.gap, ts, t⟩ c = step ⟨.gap, ts ++ t.toList, none⟩ c := by
  cases hs : Mode.isSign c with
  | true =>
    have hb : Byte.isBlank c = false := by grind [Mode.isSign, Byte.isBlank]
    simp [step, Mode.read, hb, hs, perform, hd, settled]
  | false =>
    obtain ha | ⟨v, ha⟩ := read_gap_of_not_sign hs
    · simp [step, ha, perform, settled]
    · cases t with
      | none => simp
      | some u =>
        cases u with
        | word w => exact absurd rfl (hg w)
        | _ => simp [step, ha, perform, add, settled]

theorem step_word_none (hc : c ≠ Byte.hash) :
    step ⟨.word, ts, none⟩ c = step ⟨.gap, ts, none⟩ c := by
  by_cases hb : c = Byte.backslash
  · subst hb
    show (⟨.escape, ts, none⟩ : Scan) = ⟨.escape, ts ++ [], none⟩
    rw [List.append_nil]
  · have hr : Mode.read .word c = Mode.read .gap c := by simp [Mode.read, hc, hb]
    simp only [step, hr]
    cases (Mode.read .gap c).2 <;> rfl

/-- What a backslash and a newline leave behind: between tokens the start of a word. -/
def joined (σ : Scan) : Scan := if σ.mode = .gap then ⟨.word, σ.settled, none⟩ else σ

theorem settled_joined (σ : Scan) : σ.joined.settled = σ.settled := by
  unfold joined
  split
  · exact List.append_nil _
  · rfl

theorem closed_joined (hm : σ.mode.joins = true) : σ.joined.closed = σ.closed := by
  obtain ⟨m, ts, t⟩ := σ
  cases m with
  | gap => exact List.append_nil _
  | word | double => rfl
  | escape | single | doubleEscape | comment => cases hm

end Scan

namespace Transcript
variable {ls : List (List Token)} {σ : Scan} {s : Bytes}

theorem ofBytes_append (x y : Bytes) : ofBytes (x ++ y) = y.foldl read (ofBytes x) :=
  List.foldl_append

theorem gapped_ofBytes (s : Bytes) : (ofBytes s).scan.Gapped := by
  obtain rfl | ⟨s, c, rfl⟩ := s.eq_nil_or_concat
  · exact Scan.gapped_start
  · rw [List.concat_eq_append, ofBytes_append]
    show (read (ofBytes s) c).scan.Gapped
    unfold read
    split
    · exact Scan.gapped_start
    · exact Scan.gapped_step _ c

theorem read_join (hm : σ.mode.joins = true) :
    (read ⟨ls, σ⟩ Byte.backslash).read Byte.newline = ⟨ls, σ.joined⟩ := by
  obtain ⟨m, ts, t⟩ := σ
  cases m with
  | gap | word | double => rfl
  | escape | single | doubleEscape | comment => cases hm

theorem read_congr {σ' : Scan} {c : UInt8} (hs : σ.settled = σ'.settled)
    (he : σ.mode.endsAt c = σ'.mode.endsAt c) (hc : σ.step c = σ'.step c) :
    read ⟨ls, σ⟩ c = read ⟨ls, σ'⟩ c := by
  simp only [read, he, hs, hc]

theorem read_joined (hg : σ.Gapped) {c : UInt8} (hc : ¬σ.IsParted (c :: s)) :
    read ⟨ls, σ.joined⟩ c = read ⟨ls, σ⟩ c := by
  obtain ⟨m, ts, t⟩ := σ
  by_cases hm : m = .gap
  · subst hm
    have hsign : c ≠ Byte.hash ∧ t.bind (Token.double? c) = none := by
      simpa [Scan.IsParted] using hc
    refine read_congr (Scan.settled_joined _) rfl ?_
    rw [Scan.step_settled (hg rfl) hsign.2]
    exact Scan.step_word_none hsign.1
  · rw [Scan.joined, if_neg hm]

/-- Before a `#` the pair counts as its backslash. -/
theorem read_joined_hash (hm : σ.mode = .gap) :
    read ⟨ls, σ.joined⟩ Byte.hash = (read ⟨ls, σ⟩ Byte.backslash).read Byte.hash := by
  obtain ⟨m, ts, t⟩ := σ
  obtain rfl : m = .gap := hm
  rfl

/-- Before any other byte that follows a token it counts as a blank. -/
theorem read_joined_blank (hm : σ.mode = .gap) {c : UInt8} (hc : c ≠ Byte.hash) :
    read ⟨ls, σ.joined⟩ c = (read ⟨ls, σ⟩ Byte.space).read c := by
  obtain ⟨m, ts, t⟩ := σ
  obtain rfl : m = .gap := hm
  show read ⟨ls, ⟨.word, ts ++ t.toList, none⟩⟩ c = read ⟨ls, ⟨.gap, ts ++ t.toList, none⟩⟩ c
  exact read_congr rfl rfl (Scan.step_word_none hc)

end Transcript

namespace Parser

theorem results_eq (s : Bytes) :
    results s = Transcript.outcomes (Transcript.ofBytes s).closed :=
  (Transcript.outcomes_closed s).symm

open Transcript in
/-- A backslash and a newline between `x` and `y`, where the backslash takes the next byte along,
make no difference to what is given out, except between tokens before a `#`, which starts no comment
then, and between the two bytes of an operator, which are two operators then. -/
theorem results_join (x y : Bytes) (hm : (ofBytes x).scan.mode.joins = true) :
    (¬(ofBytes x).scan.IsParted y →
      results (x ++ Byte.backslash :: Byte.newline :: y) = results (x ++ y)) ∧
    ((ofBytes x).scan.IsParted y → results (x ++ Byte.backslash :: Byte.newline :: y) =
      results (x ++ (if y.head? = some Byte.hash then Byte.backslash else Byte.space) :: y)) := by
  have hg := gapped_ofBytes x
  simp only [results_eq, ofBytes_append, List.foldl_cons]
  generalize ofBytes x = τ at hm hg ⊢
  obtain ⟨ls, σ⟩ := τ
  rw [read_join hm]
  cases y with
  | nil =>
    constructor
    · intro _
      simp only [List.foldl_nil, closed, Scan.closed_joined hm]
    · rintro ⟨-, c, hc, -⟩
      cases hc
  | cons c s =>
    constructor
    · intro hc
      rw [List.foldl_cons, List.foldl_cons, read_joined hg hc]
    · rintro ⟨hgap, hc⟩
      by_cases hh : c = Byte.hash
      · subst hh
        rw [List.foldl_cons, read_joined_hash hgap]
        rfl
      · have hne : ¬(c :: s).head? = some Byte.hash := fun h => hh (Option.some.inj h)
        rw [if_neg hne, List.foldl_cons, read_joined_blank hgap hh, List.foldl_cons]

/-- Within quotes the pair is nothing, and between the two bytes of `>>` it is a blank. -/
theorem results_join_quoted :
    results (Bytes.ofAscii "cat|\"so\\\nrt\" -r>f") = [.ok ⟨[.command ⟨Bytes.ofAscii "cat", []⟩,
      .pipe, .command ⟨Bytes.ofAscii "sort", [Bytes.ofAscii "-r"]⟩],
      some ⟨Bytes.ofAscii "f", .truncate⟩⟩] ∧
    results (Bytes.ofAscii "a>\\\n>f") = [.error .badRedirect] := by
  have hquoted := results_join (Bytes.ofAscii "cat|\"so") (Bytes.ofAscii "rt\" -r>f") (by decide)
  have hparted := results_join (Bytes.ofAscii "a>") (Bytes.ofAscii ">f") (by decide)
  refine ⟨(hquoted.1 ?_).trans ?_, (hparted.2 ?_).trans ?_⟩
  · rintro ⟨hm, -⟩
    revert hm
    decide
  · rw [results_eq]
    rfl
  · exact ⟨by decide, Byte.greater, rfl, .inr (by decide)⟩
  · rw [results_eq]
    rfl

/-- What follows the pair between tokens is not read as if it had been joined to them: `#` is an
argument, and `>` a second redirection. -/
theorem join_not_transparent :
    (Transcript.ofBytes (Bytes.ofAscii "echo a ")).scan.mode.joins = true ∧
    results (Bytes.ofAscii "echo a \\\n#b") ≠ results (Bytes.ofAscii "echo a #b") ∧
    (Transcript.ofBytes (Bytes.ofAscii "echo a >")).scan.mode.joins = true ∧
    results (Bytes.ofAscii "echo a >\\\n>f") ≠ results (Bytes.ofAscii "echo a >>f") := by
  let echo (arguments : List Bytes) : Node := .command ⟨Bytes.ofAscii "echo", arguments⟩
  let a := Bytes.ofAscii "a"
  have hhash : results (Bytes.ofAscii "echo a \\\n#b") =
      [.ok ⟨[echo [a, Bytes.ofAscii "#b"]], none⟩] := by
    rw [results_eq]
    rfl
  have hcomment : results (Bytes.ofAscii "echo a #b") = [.ok ⟨[echo [a]], none⟩] := by
    rw [results_eq]
    rfl
  have hsigns : results (Bytes.ofAscii "echo a >\\\n>f") = [.error .badRedirect] := by
    rw [results_eq]
    rfl
  have happend : results (Bytes.ofAscii "echo a >>f") =
      [.ok ⟨[echo [a]], some ⟨Bytes.ofAscii "f", .append⟩⟩] := by
    rw [results_eq]
    rfl
  rw [hhash, hcomment, hsigns, happend]
  refine ⟨by decide, fun h => ?_, by decide, nofun⟩
  exact absurd (Except.ok.inj (List.cons.inj h).1) (by decide)

end Parser

end PipeShell
