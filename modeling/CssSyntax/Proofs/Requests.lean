import CssSyntax.Proofs.Streams

/-!
The two ways to ask for a token, in any order. `next` goes on whatever came before it, and `iterate`
gives what `next` would give until it has given the end of the input or a failure. Neither takes
anything that the other one would have given differently: whatever was asked for so far, the stream
is where some number of calls of `next` alone leave it, but for whether `iterate` has ended.
-/

namespace CssSyntax.TokenStream

/-- What a stream may be asked for. -/
inductive Request where
  | next
  | iterate
  deriving DecidableEq, Repr

/-- What a stream does when it is asked. -/
def answer (stream : TokenStream) : Request → Step (Option (Except Stop Token))
  | .next => ⟨some stream.next.result, stream.next.events, stream.next.stream⟩
  | .iterate => stream.iterate

/-- The stream after a number of requests. -/
def afterAll (stream : TokenStream) (asked : List Request) : TokenStream :=
  asked.foldl (fun stream request => (stream.answer request).stream) stream

@[simp] theorem afterAll_nil (stream : TokenStream) : stream.afterAll [] = stream := rfl

@[simp] theorem afterAll_cons (stream : TokenStream) (request : Request) (asked : List Request) :
    stream.afterAll (request :: asked) = (stream.answer request).stream.afterAll asked := rfl

@[simp] theorem afterAll_append (stream : TokenStream) (first second : List Request) :
    stream.afterAll (first ++ second) = (stream.afterAll first).afterAll second :=
  List.foldl_append

/-- The call of `iterate` that comes after a number of others. -/
def iteration (stream : TokenStream) (count : Nat) : Step (Option (Except Stop Token)) :=
  (stream.afterAll (.replicate count .iterate)).iterate

/-- The same stream, with `iterate` ended or not. -/
def marked (stream : TokenStream) (finished : Bool) : TokenStream :=
  { stream with finished := finished }

variable {stream : TokenStream}

theorem marked_eq_self {finished : Bool} (h : stream.finished = finished) :
    stream.marked finished = stream := by
  rw [← h]
  rfl

/-- `next` neither looks at the mark nor changes it. -/
@[simp] theorem next_marked (stream : TokenStream) (finished : Bool) :
    (stream.marked finished).next =
      { stream.next with stream := stream.next.stream.marked finished } := by
  have same : (stream.marked finished).reader = stream.reader := rfl
  cases hlexeme : Reader.lexeme stream.reader.begin with
  | ok taken reader =>
      obtain ⟨lexeme, unterminated⟩ := taken
      rw [next_of_ok hlexeme, next_of_ok (same ▸ hlexeme)]
      rfl
  | error stop reader =>
      rw [next_of_error hlexeme, next_of_error (same ▸ hlexeme)]
      rfl

@[simp] theorem finished_next (stream : TokenStream) :
    stream.next.stream.finished = stream.finished := by
  have unchanged := congrArg Step.stream (next_marked stream stream.finished)
  rw [marked_eq_self rfl] at unchanged
  rw [unchanged]
  rfl

@[simp] theorem after_marked (stream : TokenStream) (finished : Bool) (count : Nat) :
    (stream.marked finished).after count = (stream.after count).marked finished := by
  induction count generalizing stream with
  | zero => rfl
  | succ count ih =>
      rw [after_add_one, next_marked]
      exact ih stream.next.stream

@[simp] theorem finished_after (stream : TokenStream) (count : Nat) :
    (stream.after count).finished = stream.finished := by
  induction count generalizing stream with
  | zero => rfl
  | succ count ih => exact (ih stream.next.stream).trans (finished_next stream)

/-- A request is answered with nothing, or with a call of `next`. -/
theorem answer_cases (stream : TokenStream) (request : Request) :
    stream.answer request = ⟨none, [], stream⟩ ∨
      ∃ finished, stream.answer request =
        ⟨some stream.next.result, stream.next.events, stream.next.stream.marked finished⟩ := by
  cases request with
  | next =>
      refine .inr ⟨stream.finished, ?_⟩
      rw [marked_eq_self (finished_next stream)]
      rfl
  | iterate =>
      cases h : stream.finished with
      | true => exact .inl (iterate_of_finished h)
      | false => exact .inr ⟨isLast stream.next.result, iterate_of_going h⟩

/-- After any requests, the stream is where calls of `next` alone leave it. -/
theorem exists_afterAll (stream : TokenStream) (asked : List Request) :
    ∃ count finished, stream.afterAll asked = (stream.after count).marked finished := by
  induction asked generalizing stream with
  | nil => exact ⟨0, stream.finished, rfl⟩
  | cons request asked ih =>
      rw [afterAll_cons]
      rcases answer_cases stream request with idle | ⟨ended, answered⟩
      · rw [idle]
        exact ih stream
      · obtain ⟨count, finished, h⟩ := ih (stream.next.stream.marked ended)
        rw [answered]
        refine ⟨count + 1, finished, ?_⟩
        rw [h, after_marked]
        rfl

/-- Once it has ended, a stream stays as it is when it is asked to iterate. -/
theorem afterAll_iterate_of_finished (ended : stream.finished = true) (count : Nat) :
    stream.afterAll (.replicate count .iterate) = stream := by
  induction count with
  | zero => rfl
  | succ count ih =>
      have stays : (stream.answer .iterate).stream = stream :=
        congrArg Step.stream (iterate_of_finished ended)
      rw [List.replicate_succ, afterAll_cons, stays, ih]

/-- As long as no call gives the end of the input or a failure, iterating is calling `next`. -/
theorem afterAll_iterate_of_going (going : stream.finished = false) {count : Nat}
    (notLast : ∀ earlier < count, isLast (stream.call earlier).result = false) :
    stream.afterAll (.replicate count .iterate) = stream.after count := by
  induction count generalizing stream with
  | zero => rfl
  | succ count ih =>
      have first : isLast stream.next.result = false := notLast 0 (Nat.zero_lt_succ count)
      have goesOn : stream.next.stream.finished = false := (finished_next stream).trans going
      have step : (stream.answer .iterate).stream = stream.next.stream := by
        rw [answer, iterate_of_going going, first]
        exact marked_eq_self goesOn
      rw [List.replicate_succ, afterAll_cons, step]
      apply ih goesOn
      intro earlier within
      exact notLast (earlier + 1) (Nat.succ_lt_succ within)

/-- Iterating gives what `next` gives, through the first end of the input or failure, and nothing
after that. -/
theorem iteration_result (going : stream.finished = false) {last : Nat}
    (ends : isLast (stream.call last).result)
    (notLast : ∀ earlier < last, isLast (stream.call earlier).result = false) (count : Nat) :
    (stream.iteration count).result =
      if count ≤ last then some (stream.call count).result else none := by
  by_cases within : count ≤ last
  · rw [if_pos within, iteration, afterAll_iterate_of_going going, iterate_of_going]
    · rfl
    · exact (finished_after stream count).trans going
    · intro earlier less
      exact notLast earlier (Nat.lt_of_lt_of_le less within)
  · obtain ⟨more, rfl⟩ : ∃ more, count = last + 1 + more :=
      Nat.exists_eq_add_of_le (Nat.lt_of_not_le within)
    have ended : (stream.iteration last).stream.finished = true := by
      rw [iteration, afterAll_iterate_of_going going notLast, iterate_of_going]
      · exact ends
      · exact (finished_after stream last).trans going
    have stays := afterAll_iterate_of_finished ended more
    rw [if_neg within, iteration, ← List.replicate_append_replicate, afterAll_append,
      List.replicate_succ', afterAll_append]
    change ((stream.iteration last).stream.afterAll _).iterate.result = none
    rw [stays, iterate_of_finished ended]

end CssSyntax.TokenStream
