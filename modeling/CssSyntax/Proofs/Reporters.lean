import CssSyntax.Proofs.Reporting

/-!
Reporters side by side. Asked for the same in the same order, streams over one source give the same
results and leave the same of it, whatever their reporters. A logging reporter makes a warning of
each error that a collecting one keeps, before the note of the token it was met in. And `iterate`
has ended once it has itself given the end of the input or a failure, whatever `next` has given.
-/

namespace CssSyntax

namespace TokenStream

/-- Two streams that differ in their reporters at most. -/
structure Alike (first second : TokenStream) : Prop where
  reader : first.reader = second.reader
  finished : first.finished = second.finished

variable {first second : TokenStream}

theorem Alike.next (alike : first.Alike second) :
    first.next.result = second.next.result ∧ first.next.stream.Alike second.next.stream := by
  cases hlexeme : Reader.lexeme first.reader.begin with
  | ok taken reader =>
      obtain ⟨lexeme, unterminated⟩ := taken
      have again := hlexeme
      rw [alike.reader] at again
      rw [next_of_ok hlexeme, next_of_ok again]
      exact ⟨rfl, rfl, alike.finished⟩
  | error stop reader =>
      have again := hlexeme
      rw [alike.reader] at again
      rw [next_of_error hlexeme, next_of_error again]
      exact ⟨rfl, rfl, alike.finished⟩

/-- One request is answered alike. -/
theorem Alike.answer (alike : first.Alike second) (request : Request) :
    (first.answer request).result = (second.answer request).result ∧
      (first.answer request).stream.Alike (second.answer request).stream := by
  obtain ⟨same, after⟩ := alike.next
  cases request with
  | next => exact ⟨congrArg some same, after⟩
  | iterate =>
      cases ended : first.finished with
      | true =>
          have again : second.finished = true := alike.finished.symm.trans ended
          rw [TokenStream.answer, TokenStream.answer, iterate_of_finished ended,
            iterate_of_finished again]
          exact ⟨rfl, alike⟩
      | false =>
          have again : second.finished = false := alike.finished.symm.trans ended
          rw [TokenStream.answer, TokenStream.answer, iterate_of_going ended,
            iterate_of_going again]
          exact ⟨congrArg some same, after.reader, congrArg isLast same⟩

/-- Any number of requests are answered alike. -/
theorem Alike.afterAll (alike : first.Alike second) (asked : List Request) :
    (first.afterAll asked).Alike (second.afterAll asked) := by
  induction asked generalizing first second with
  | nil => exact alike
  | cons request asked ih => exact ih (alike.answer request).2

/-- A request tells the reporter what its result calls for, and nothing else. -/
theorem answer_reports (stream : TokenStream) (request : Request) :
    let step := stream.answer request
    let told := stream.reporter.told (step.result.bind errorIn)
    step.stream.reporter = told.1 ∧ step.events = told.2 ++ step.result.elim [] traces := by
  rcases answer_cases stream request with idle | ⟨finished, answered⟩
  · rw [idle]
    exact ⟨rfl, rfl⟩
  · rw [answered]
    exact next_reports stream

theorem exists_toldAll (stream : TokenStream) (asked : List Request) :
    ∃ errors, (stream.afterAll asked).reporter = stream.reporter.toldAll errors := by
  induction asked generalizing stream with
  | nil => exact ⟨[], rfl⟩
  | cons request asked ih =>
      obtain ⟨errors, later⟩ := ih (stream.answer request).stream
      rw [(answer_reports stream request).1] at later
      exact ⟨(stream.answer request).result.bind errorIn :: errors, later⟩

/-- Whether an answer is one that an iteration ends with: the end token or a failure. -/
def EndsIteration : Option (Except Stop Token) → Prop
  | some (.ok token) => token.kind = .endOfInput
  | some (.error _) => True
  | none => False

@[simp] theorem endsIteration_some {result : Except Stop Token} :
    EndsIteration (some result) ↔ isLast result = true := by
  cases result with
  | ok token => exact beq_iff_eq.symm
  | error stop => exact iff_of_true trivial rfl

/-- Only iterating ends an iteration. -/
theorem finished_answer (stream : TokenStream) (request : Request) :
    (stream.answer request).stream.finished = true ↔
      stream.finished = true ∨ request = .iterate ∧ EndsIteration stream.iterate.result := by
  cases request with
  | next =>
      change stream.next.stream.finished = true ↔ _
      simp
  | iterate =>
      cases ended : stream.finished with
      | true => simp [answer, iterate_of_finished ended, ended]
      | false => simp [answer, iterate_of_going ended]

theorem finished_afterAll (stream : TokenStream) (asked : List Request) :
    (stream.afterAll asked).finished = true ↔
      stream.finished = true ∨ ∃ before behind, asked = before ++ .iterate :: behind ∧
        EndsIteration (stream.afterAll before).iterate.result := by
  induction asked generalizing stream with
  | nil => simp
  | cons request asked ih =>
      rw [afterAll_cons, ih, finished_answer, or_assoc]
      apply or_congr_right
      constructor
      · rintro (⟨rfl, ends⟩ | ⟨before, behind, rfl, ends⟩)
        · exact ⟨[], asked, rfl, ends⟩
        · exact ⟨request :: before, behind, rfl, ends⟩
      · rintro ⟨before, behind, split, ends⟩
        rcases List.cons_eq_append_iff.mp split with ⟨rfl, here⟩ | ⟨later, rfl, there⟩
        · exact .inl ⟨(List.cons.inj here).1.symm, ends⟩
        · exact .inr ⟨later, behind, there, ends⟩

@[simp] theorem iterate_eq_none_iff (stream : TokenStream) :
    stream.iterate.result = none ↔ stream.finished = true := by
  cases ended : stream.finished with
  | true => simp [iterate_of_finished ended]
  | false => simp [iterate_of_going ended]

section

variable (source : Source) (asked : List Request) (request : Request)

theorem reporter_of_logging : ((ofSource source .logging).afterAll asked).reporter = .logging := by
  obtain ⟨errors, told⟩ := exists_toldAll (ofSource source .logging) asked
  exact told.trans (Reporter.toldAll_logging errors)

theorem reporter_of_collecting :
    ∃ kept, ((ofSource source (.collecting [])).afterAll asked).reporter = .collecting kept := by
  obtain ⟨errors, told⟩ := exists_toldAll (ofSource source (.collecting [])) asked
  exact ⟨_, told.trans (Reporter.toldAll_collecting [] errors)⟩

theorem events_of_logging :
    let step := ((ofSource source .logging).afterAll asked).answer request
    step.events =
      (step.result.bind errorIn).toList.map .warning ++ step.result.elim [] traces := by
  intro step
  have events := (answer_reports ((ofSource source .logging).afterAll asked) request).2
  rwa [reporter_of_logging, Reporter.told_logging] at events

end

/-- Streams over one source that are asked for the same, in any order of `next` and `iterate`, give
the same results whatever their reporters, and have the same of the source left. In each step the
logging one leaves a warning for every error that the collecting one gains, then the trace of the
token, and nothing at all where no token is given. `iterate` gives nothing, and takes nothing, if an
earlier `iterate` has given the end token or a failure, and otherwise it gives what `next` would. -/
theorem reporters_agree (source : Source) (asked : List Request) (request : Request) :
    let run (reporter : Reporter) := (ofSource source reporter).afterAll asked
    let step (reporter : Reporter) := (run reporter).answer request
    (∀ first second : Reporter,
      (step first).result = (step second).result ∧
        (step first).stream.intoSource = (step second).stream.intoSource) ∧
    (∃ kept gained,
      (run (.collecting [])).reporter = .collecting kept ∧
        (step (.collecting [])).stream.reporter = .collecting (kept ++ gained) ∧
        (step .logging).events =
          gained.map .warning ++ (step .logging).result.elim [] traces) ∧
    ((∀ token, (step .logging).result ≠ some (.ok token)) → (step .logging).events = []) ∧
    ∀ reporter : Reporter,
      ((run reporter).iterate.result = none ↔
        ∃ before behind, asked = before ++ .iterate :: behind ∧
          EndsIteration ((ofSource source reporter).afterAll before).iterate.result) ∧
      ((run reporter).iterate.result = none → (run reporter).iterate = ⟨none, [], run reporter⟩) ∧
      ((run reporter).iterate.result ≠ none →
        (run reporter).iterate.result = some (run reporter).next.result ∧
          (run reporter).iterate.events = (run reporter).next.events ∧
          (run reporter).iterate.stream.reader = (run reporter).next.stream.reader) := by
  intro run step
  have alike (first second : Reporter) : (run first).Alike (run second) := by
    have start : (ofSource source first).Alike (ofSource source second) := ⟨rfl, rfl⟩
    exact start.afterAll asked
  have noted := events_of_logging source asked request
  refine ⟨?_, ?_, ?_, ?_⟩
  · intro first second
    obtain ⟨same, after⟩ := (alike first second).answer request
    exact ⟨same, congrArg (fun reader => reader.input.source) after.reader⟩
  · obtain ⟨errors, kept⟩ := reporter_of_collecting source asked
    have gained := (answer_reports (run (.collecting [])) request).1
    have same := ((alike (.collecting []) .logging).answer request).1
    rw [kept, Reporter.told_collecting, same] at gained
    exact ⟨_, _, kept, gained, noted⟩
  · intro noToken
    rw [noted]
    cases given : (step .logging).result with
    | none => rfl
    | some result =>
        cases result with
        | ok token => exact absurd given (noToken token)
        | error stop => rfl
  · intro reporter
    have ended := finished_afterAll (ofSource source reporter) asked
    refine ⟨?_, ?_, ?_⟩
    · rw [iterate_eq_none_iff, ended]
      simp [ofSource]
    · intro nothing
      exact iterate_of_finished ((iterate_eq_none_iff _).mp nothing)
    · intro something
      have going := Bool.eq_false_iff.mpr (mt (iterate_eq_none_iff _).mpr something)
      rw [iterate_of_going going]
      exact ⟨rfl, rfl, rfl⟩

end TokenStream

end CssSyntax
