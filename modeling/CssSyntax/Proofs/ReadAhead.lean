import CssSyntax.Proofs.Endings
import CssSyntax.Proofs.Looking
import CssSyntax.Proofs.Places

/-!
What a stream has read ahead between two calls. A failure leaves nothing ahead, and nothing held. A
token leaves three code points ahead at most; only the function `url` leaves the blanks behind it,
however many there are, and the quote. The next token takes those blanks, so what is ahead never
piles up. It is what is lost when the source is taken back, with the unit that may be held.
-/

namespace CssSyntax

open CodePoint

theorem Text.length_takeWhile_le_append (p : Char → Bool) (front behind : Text) :
    (front.takeWhile p).length ≤ ((front ++ behind).takeWhile p).length := by
  rw [List.takeWhile_append]
  split
  · exact (List.takeWhile_prefix p).length_le.trans (List.prefix_append ..).length_le
  · exact Nat.le_refl _

namespace Reader

variable {r after : Reader} {taken : Taken}

/-- Behind the blanks that come first, there are no more than three code points ahead. -/
def Shallow (r : Reader) : Prop := (r.ahead.dropWhile isWhitespace).length ≤ 3

theorem shallow_of_length_le (few : r.ahead.length ≤ 3) : r.Shallow :=
  (List.dropWhile_sublist _).length_le.trans few

theorem BlanksAhead.shallow (h : r.BlanksAhead) : r.Shallow := by
  obtain ⟨blanks, quote, ahead, blank, -⟩ := h
  rw [Shallow, ahead, List.dropWhile_append_of_pos blank]
  exact (List.dropWhile_sublist _).length_le.trans (Nat.le_add_left 1 2)

theorem Shallow.length_le (h : r.Shallow) :
    r.ahead.length ≤ (r.ahead.takeWhile isWhitespace).length + 3 := by
  have split := congrArg List.length
    (List.takeWhile_append_dropWhile (p := isWhitespace) (l := r.ahead))
  rw [List.length_append] at split
  rw [Shallow] at h
  omega

theorem length_of_lexeme (h : lexeme r = .ok taken after) (fresh : r.taken = []) :
    taken.1 = (Lexeme.read r.text).lexeme ∧
      after.taken.length + (Lexeme.read r.text).rest.length = r.text.length := by
  have outcome := (reads_lexeme r).outcome
  rw [h] at outcome
  obtain ⟨lexeme, rest, moves⟩ := outcome
  have kept := congrArg List.length moves.keeps.1
  rw [rest, fresh] at kept
  exact ⟨congrArg Prod.fst lexeme, by simpa using kept⟩

/-- Before the end of the input a lexeme takes something. -/
theorem taken_of_lexeme {c : Char} {s : Reader} (h : lexeme r = .ok taken after)
    (fresh : r.taken = []) (hnext : next r = .ok (some c) s) : 1 ≤ after.taken.length := by
  have nonempty : r.text ≠ [] := fun empty => by
    have outcome := (yields_next r).outcome
    rw [hnext, empty] at outcome
    cases outcome.1
  have shorter := Lexeme.length_read_lt nonempty
  have lengths := (length_of_lexeme h fresh).2
  omega

/-- Blanks that are ahead are taken all at once, as a token of their own. -/
theorem blanks_of_lexeme (h : lexeme r = .ok taken after) (fresh : r.taken = []) :
    r.ahead.takeWhile isWhitespace = [] ∨
      taken.1.kind = .whitespace ∧
        (r.ahead.takeWhile isWhitespace).length ≤ after.taken.length := by
  cases hahead : r.ahead with
  | nil => exact .inl rfl
  | cons c more =>
      by_cases blank : isWhitespace c
      · right
        have text : r.text = c :: (more ++ r.input.text) := by rw [Reader.text, hahead]; rfl
        obtain ⟨lexeme, lengths⟩ := length_of_lexeme h fresh
        have run := Text.length_takeWhile_le_append isWhitespace more r.input.text
        have split := congrArg List.length
          (List.takeWhile_append_dropWhile (p := isWhitespace) (l := more ++ r.input.text))
        rw [List.length_append] at split
        rw [text, Lexeme.read_of_blank blank] at lexeme lengths
        simp only [List.length_cons] at lengths
        rw [List.takeWhile_cons_of_pos blank, List.length_cons, lexeme]
        exact ⟨rfl, by omega⟩
      · exact .inl (List.takeWhile_cons_of_neg blank)

/-- From a reader with few code points ahead, a lexeme leaves few code points ahead again. -/
theorem ahead_of_lexeme (h : lexeme r = .ok taken after) (fresh : r.taken = [])
    (shallow : r.Shallow) :
    if taken.1.CallsUrl then after.BlanksAhead else after.ahead.length ≤ 3 := by
  obtain ⟨first, s, hnext, hfrom⟩ := bind_eq_ok h
  cases first with
  | none =>
      obtain ⟨atEnd, rfl⟩ := atEnd_of_next hnext
      cases hfrom
      rw [if_neg (by decide), atEnd.ahead]
      exact Nat.zero_le 3
  | some c =>
      obtain ⟨one, reach⟩ := reach_of_next hnext
      rw [width_some, fresh, List.length_nil, Nat.zero_add] at one
      have start : r.reach = r.ahead.length := by rw [Reader.reach, fresh]; exact Nat.zero_add _
      rw [start, one] at reach
      have leaves := leaves_of_lexemeFrom hfrom (one ▸ taken_of_lexeme h fresh hnext)
      have few := shallow.length_le
      have blanks := blanks_of_lexeme h fresh
      split
      · next calls =>
          -- The blanks that were ahead would have been the token.
          have noBlanks : r.ahead.takeWhile isWhitespace = [] :=
            blanks.resolve_right fun blank => by rw [calls.1] at blank; cases blank.1
          rw [noBlanks, List.length_nil] at few
          exact leaves.blanks calls (by omega)
      · next other =>
          have reach' : after.taken.length + after.ahead.length ≤ _ := (leaves.looks other).reach
          rcases blanks with noBlanks | ⟨-, taken⟩
          · rw [noBlanks, List.length_nil] at few
            omega
          · omega

end Reader

namespace TokenStream

open Reader (Shallow)

/-- What a call leaves ahead of its result. -/
def LeavesAhead (result : Except Stop Token) (reader : Reader) : Prop :=
  match result with
  | .error _ => reader.ahead = [] ∧ reader.input.held = none
  | .ok token => if token.CallsUrl then reader.BlanksAhead else reader.ahead.length ≤ 3

variable {stream : TokenStream}

theorem LeavesAhead.shallow {result : Except Stop Token} {reader : Reader}
    (h : LeavesAhead result reader) : reader.Shallow := by
  cases result with
  | error stop => exact Reader.shallow_of_length_le (by rw [h.1]; exact Nat.zero_le 3)
  | ok token =>
      simp only [LeavesAhead] at h
      split at h
      · exact h.shallow
      · exact Reader.shallow_of_length_le h

theorem leavesAhead_next (shallow : stream.reader.Shallow) :
    LeavesAhead stream.next.result stream.next.stream.reader := by
  cases hlexeme : Reader.lexeme stream.reader.begin with
  | ok taken reader =>
      obtain ⟨lexeme, unterminated⟩ := taken
      rw [next_of_ok hlexeme]
      exact Reader.ahead_of_lexeme hlexeme rfl shallow
  | error stop reader =>
      have outcome := (Reader.reads_lexeme stream.reader.begin).outcome
      rw [hlexeme] at outcome
      obtain ⟨last, -, hnext⟩ := outcome
      obtain ⟨f, input, -, rfl, -, ahead, hread⟩ := Reader.next_error hnext
      rw [next_of_error hlexeme]
      refine ⟨ahead, ?_⟩
      change input.held = none
      rw [Normalizer.eq_ofSource_of_error hread]
      rfl

/-- However many calls are made, what is ahead never piles up. -/
theorem shallow_after (shallow : stream.reader.Shallow) (count : Nat) :
    (stream.after count).reader.Shallow := by
  induction count generalizing stream with
  | zero => exact shallow
  | succ count ih => exact ih (leavesAhead_next shallow).shallow

/-- In every run over every source, a failure leaves nothing ahead and nothing held, and a token
leaves three code points ahead at most, or the blanks and the quote behind `url(`. What the
normalizer has given by then is the text that the calls have taken, all of it behind the reader once
the next one begins, and what is ahead. So what is ahead and the unit held are lost when the source
is taken back. -/
theorem call_leaves_ahead (source : Source) (reporter : Reporter) (count : Nat) :
    let stream := ofSource source reporter
    let step := stream.call count
    let reader := step.stream.reader
    LeavesAhead step.result reader ∧
      Normalizer.Gave source (stream.committed (count + 2) ++ reader.ahead)
        ⟨step.stream.intoSource, reader.input.held⟩ := by
  intro stream step reader
  have start : stream.reader.Shallow := Reader.shallow_of_length_le (Nat.zero_le 3)
  refine ⟨leavesAhead_next (shallow_after start count), ?_⟩
  have behind := (behind_committed source reporter (count + 1)).gave
  rw [after_succ] at behind
  rw [committed, after_succ]
  exact behind

/-- A hash looks at three code points, and may take none of them. -/
example :
    ((ofSource (.ofText ['#', '!', '!', '!', '!']) .discarding).call 0).stream.reader.ahead =
      ['!', '!', '!'] := by
  decide +kernel

end TokenStream

end CssSyntax
