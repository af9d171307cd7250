import CssSyntax.Proofs.Requests

/-!
How a run ends. Before the end of the input every call of `next` takes a code point or a failure
away from what is left, so the end comes within as many calls as there is input; what the calls
stop at are the failures of the source, one after another; and behind the end every call finds the
same place again.
-/

namespace CssSyntax

/-- The stops among the results of calls, in order. -/
def Stop.among (results : List (Except Stop Token)) : List Stop :=
  results.filterMap fun
    | .ok _ => none
    | .error stop => some stop

@[simp] theorem Stop.among_cons (result : Except Stop Token) (results : List (Except Stop Token)) :
    among (result :: results) = among [result] ++ among results :=
  List.filterMap_append (l := [result])

namespace Reader

variable {r s after : Reader}

/-- Nothing is left to read: no text given back, no unit held and nothing in the source. -/
structure AtEnd (r : Reader) : Prop where
  ahead : r.ahead = []
  input : r.input = .ofSource []

@[simp] theorem atEnd_begin : r.begin.AtEnd ↔ r.AtEnd := by
  constructor <;> intro h <;> exact ⟨h.ahead, h.input⟩

theorem AtEnd.next_eq (h : r.AtEnd) : next r = .ok none r := by
  obtain ⟨input, ahead, taken, position⟩ := r
  obtain ⟨rfl, rfl⟩ : ahead = [] ∧ input = .ofSource [] := ⟨h.ahead, h.input⟩
  rfl

/-- Only at the end does a reader find the end, and not in front of a failure. -/
theorem atEnd_of_next (h : next r = .ok none after) : r.AtEnd ∧ after = r := by
  obtain ⟨input, ahead, taken, position⟩ := r
  cases ahead with
  | cons c ahead => cases h
  | nil =>
      simp only [next] at h
      split at h
      · cases h
      · next input' hread =>
          obtain ⟨rfl, rfl⟩ := Normalizer.eq_of_end hread
          cases h
          exact ⟨⟨rfl, rfl⟩, rfl⟩
      · cases h

theorem AtEnd.lexeme_eq (h : r.AtEnd) : lexeme r = .ok (Lexeme.endOfInput, none) r := by
  simp only [lexeme, bind, EStateM.bind, h.next_eq]
  rfl

/-- The end of the input is read at the end only. -/
theorem atEnd_of_lexeme {taken : Taken} (h : lexeme r = .ok taken after)
    (ended : taken.1.kind = .endOfInput) : r.AtEnd := by
  have outcome := (reads_lexeme r).outcome
  rw [h] at outcome
  obtain ⟨c, middle, hnext, -⟩ := bind_eq_ok h
  obtain ⟨d, _, hd, htext, _⟩ | ⟨_, hnone, _⟩ | ⟨f, input, hfail, _⟩ := next_cases r
  · have nonempty : r.text ≠ [] := by simp [htext]
    refine absurd ?_ (Lexeme.kind_read_ne_endOfInput nonempty)
    rw [← ended, outcome.1]
  · exact (atEnd_of_next hnone).1
  · rw [hfail] at hnext
    cases hnext

/-- What is taken is no longer among what is left. -/
theorem Moves.remaining_le (h : Moves r s) :
    s.taken.length + s.remaining ≤ r.taken.length + r.remaining := by
  induction h with
  | refl => exact Nat.le_refl _
  | @take s after c _ hnext ih =>
      obtain ⟨d, next, hd, _, htaken, _⟩ | ⟨next, hnone, _, _, htaken, _⟩ | ⟨f, input, hfail, _⟩ :=
        next_cases s
      · rw [hnext] at hd
        cases hd
        have := remaining_lt_of_next hnext
        rw [htaken, List.length_cons]
        omega
      · rw [hnext] at hnone
        cases hnone
        have := remaining_le_of_next hnext
        rw [htaken]
        omega
      · rw [hnext] at hfail
        cases hfail
  | @giveBack s after c _ hunread ih =>
      cases c with
      | none =>
          cases hunread
          exact ih
      | some c =>
          have more := remaining_of_unread hunread
          obtain ⟨taken, htaken, rfl⟩ := unread_eq_ok hunread
          rw [htaken, List.length_cons] at ih
          change taken.length + _ ≤ _
          omega

/-- A failure is taken off the source. -/
theorem remaining_lt_of_next_error {stop : Stop} (h : next r = .error stop after) :
    after.remaining < r.remaining := by
  obtain ⟨f, input, _, rfl, _, _, hread⟩ := next_error h
  exact Nat.add_lt_add_left (Normalizer.remaining_lt_of_error hread) _

end Reader

namespace TokenStream

open Reader (AtEnd Moves)

variable {stream : TokenStream}

theorem next_of_atEnd (h : stream.reader.AtEnd) :
    stream.next = stream.gives stream.reader.begin (endToken stream.reader.begin.position) none :=
  next_of_ok (Reader.atEnd_begin.mpr h).lexeme_eq

theorem atEnd_of_endOfInput {token : Token} (h : stream.next.result = .ok token)
    (ended : token.kind = .endOfInput) : stream.reader.AtEnd := by
  cases hlexeme : Reader.lexeme stream.reader.begin with
  | error stop reader =>
      rw [next_of_error hlexeme] at h
      cases h
  | ok taken reader =>
      obtain ⟨lexeme, unterminated⟩ := taken
      rw [next_of_ok hlexeme] at h
      cases h
      exact Reader.atEnd_begin.mp (Reader.atEnd_of_lexeme hlexeme ended)

/-- Before the end each call takes something of what is left. -/
theorem remaining_next_lt (going : ¬stream.reader.AtEnd) :
    stream.next.stream.reader.remaining < stream.reader.remaining := by
  obtain ⟨reader, moves, htext, hnext⟩ | ⟨stop, reader, last, moves, hfail, hnext⟩ :=
    next_cases stream
  · have nonempty : stream.reader.begin.text ≠ [] := by
      intro empty
      apply going
      refine atEnd_of_endOfInput (congrArg Step.result hnext) ?_
      rw [empty]
      rfl
    have shorter := Lexeme.length_read_lt nonempty
    have keeps := congrArg List.length moves.keeps.1
    rw [htext] at keeps
    simp only [Reader.begin, List.reverse_nil, List.nil_append, List.length_append,
      List.length_reverse] at keeps shorter
    have less : reader.taken.length + reader.remaining ≤ 0 + stream.reader.remaining :=
      moves.remaining_le
    rw [hnext]
    change reader.remaining < _
    change (Lexeme.read (Reader.text _)).rest.length < (Reader.text _).length at shorter
    omega
  · have less : last.taken.length + last.remaining ≤ 0 + stream.reader.remaining :=
      moves.remaining_le
    have fewer := Reader.remaining_lt_of_next_error hfail
    rw [hnext]
    change reader.remaining < _
    omega

/-- A call either leaves the failures that are to come, or it stops at the first of them. -/
theorem failures_next (stream : TokenStream) :
    stream.reader.input.source.failures.map Stop.failure =
      Stop.among [stream.next.result] ++
        stream.next.stream.reader.input.source.failures.map Stop.failure := by
  obtain ⟨reader, moves, _, hnext⟩ | ⟨stop, reader, last, moves, hfail, hnext⟩ := next_cases stream
  · rw [hnext]
    exact congrArg _ moves.failures.symm
  · obtain ⟨f, input, rfl, rfl, _, _, hread⟩ := Reader.next_error hfail
    have first : stream.reader.input.source.failures = f :: input.source.failures :=
      moves.failures.symm.trans (Normalizer.failures_of_error hread)
    rw [hnext, first]
    rfl

/-- What the first calls stop at, and the failures that are still to come after them, are all
failures of the source. -/
theorem failures_results (stream : TokenStream) (count : Nat) :
    stream.reader.input.source.failures.map Stop.failure =
      Stop.among (stream.results count) ++
        (stream.after count).reader.input.source.failures.map Stop.failure := by
  induction count generalizing stream with
  | zero => rfl
  | succ count ih =>
      rw [results_succ, Stop.among_cons, List.append_assoc, failures_next stream]
      exact congrArg _ (ih stream.next.stream)

/-- The end comes, after no more calls than there is left to read. -/
theorem exists_atEnd (stream : TokenStream) :
    ∃ count ≤ stream.reader.remaining, (stream.after count).reader.AtEnd ∧
      ∀ earlier < count, ¬(stream.after earlier).reader.AtEnd := by
  induction hn : stream.reader.remaining using Nat.strongRecOn generalizing stream with
  | ind n ih =>
      by_cases ended : stream.reader.AtEnd
      · exact ⟨0, Nat.zero_le n, ended, fun earlier less => absurd less (Nat.not_lt_zero earlier)⟩
      · have less := remaining_next_lt ended
        rw [hn] at less
        obtain ⟨count, le, atEnd, before⟩ := ih _ less stream.next.stream rfl
        refine ⟨count + 1, by omega, atEnd, ?_⟩
        intro earlier within
        cases earlier with
        | zero => exact ended
        | succ earlier => exact before earlier (Nat.lt_of_succ_lt_succ within)

/-- Behind the end no call moves the reader. -/
theorem begin_after_of_atEnd (h : stream.reader.AtEnd) (count : Nat) :
    (stream.after count).reader.begin = stream.reader.begin := by
  induction count generalizing stream with
  | zero => rfl
  | succ count ih =>
      have stays : stream.next.stream.reader = stream.reader.begin := by
        rw [next_of_atEnd h]
        rfl
      have ended : stream.next.stream.reader.AtEnd := by
        rw [stays]
        exact Reader.atEnd_begin.mpr h
      calc
        (stream.next.stream.after count).reader.begin = stream.next.stream.reader.begin := ih ended
        _ = stream.reader.begin.begin := by rw [stays]
        _ = stream.reader.begin := rfl

/-- Behind the end every call gives the end token at the same place, and reports nothing. -/
theorem call_of_atEnd (h : stream.reader.AtEnd) (count : Nat) :
    stream.call count =
      (stream.after count).gives stream.reader.begin (endToken stream.reader.begin.position)
        none := by
  have same := begin_after_of_atEnd h count
  have ended : (stream.after count).reader.AtEnd := by
    rw [← Reader.atEnd_begin, same]
    exact Reader.atEnd_begin.mpr h
  rw [call, next_of_atEnd ended, same]

theorem after_add (stream : TokenStream) (first later : Nat) :
    stream.after (first + later) = (stream.after first).after later := by
  induction first generalizing stream with
  | zero => rw [Nat.zero_add]; rfl
  | succ first ih =>
      rw [Nat.succ_add]
      exact ih stream.next.stream

theorem result_of_atEnd {count later : Nat} (h : (stream.after count).reader.AtEnd)
    (behind : count ≤ later) :
    (stream.call later).result =
      .ok (endToken (stream.after count).reader.begin.position) := by
  obtain ⟨more, rfl⟩ := Nat.exists_eq_add_of_le behind
  have ended := call_of_atEnd h more
  rw [call, ← after_add] at ended
  exact congrArg Step.result ended

/-- Whatever a call gives last of all is given at the end, or is a failure before it. -/
theorem exists_isLast {count : Nat} (h : isLast (stream.call count).result) :
    ∃ last ≤ count, isLast (stream.call last).result ∧
      ∀ earlier < last, isLast (stream.call earlier).result = false := by
  induction count using Nat.strongRecOn with
  | ind count ih =>
      by_cases sooner : ∃ earlier < count, isLast (stream.call earlier).result
      · obtain ⟨earlier, less, found⟩ := sooner
        obtain ⟨last, le, first⟩ := ih earlier less found
        exact ⟨last, Nat.le_trans le (Nat.le_of_lt less), first⟩
      · refine ⟨count, Nat.le_refl _, h, ?_⟩
        intro earlier less
        rw [← Bool.not_eq_true]
        exact fun found => sooner ⟨earlier, less, found⟩

/-- Over any source, the end token comes within one call more than the source has items. Until then
the calls stop at the failures of the source and at nothing else, at each of them once and in order;
from then on every call gives the end token at the same place. Iterating gives the results of the
same calls through the first end token or failure, and nothing ever after. -/
theorem run_delivers_and_ends (source : Source) (reporter : Reporter) :
    let stream := ofSource source reporter
    ∃ (count : Nat) (place : Position),
      count ≤ source.length ∧
      (∀ earlier < count, ∀ token, (stream.call earlier).result = .ok token →
        token.kind ≠ .endOfInput) ∧
      Stop.among (stream.results count) = source.failures.map .failure ∧
      (∀ later, count ≤ later → (stream.call later).result = .ok (endToken place)) ∧
      ∃ last ≤ count, isLast (stream.call last).result ∧
        (∀ earlier < last, isLast (stream.call earlier).result = false) ∧
        ∀ calls, (stream.iteration calls).result =
          if calls ≤ last then some (stream.call calls).result else none := by
  intro stream
  obtain ⟨count, within, ended, before⟩ := exists_atEnd stream
  have items : stream.reader.remaining = source.length := Nat.zero_add _
  have atCount := result_of_atEnd ended (Nat.le_refl count)
  have ends : isLast (stream.call count).result := by
    rw [atCount]
    rfl
  obtain ⟨last, sooner, found, first⟩ := exists_isLast ends
  refine ⟨count, (stream.after count).reader.begin.position, items ▸ within, ?_, ?_, ?_,
    last, sooner, found, first, iteration_result rfl found first⟩
  · intro earlier less token given isEnd
    exact before earlier less (atEnd_of_endOfInput given isEnd)
  · have all := failures_results stream count
    rw [ended.input] at all
    exact (all.trans (List.append_nil _)).symm
  · intro later behind
    exact result_of_atEnd ended behind

end TokenStream

end CssSyntax
