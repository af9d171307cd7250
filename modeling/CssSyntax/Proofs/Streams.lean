import CssSyntax.Proofs.NormalForm
import CssSyntax.Proofs.Tokens
import CssSyntax.TokenStream

/-!
Runs of a stream. Each call of `next` either gives the token at the front of the text that is left,
or hands on a failure of the source; over a source that does not fail, the calls give the tokens of
its text one after another, and after them the end token for good.
-/

namespace CssSyntax

/-- What a reporter makes of a call that may have met an error. -/
def Reporter.told (reporter : Reporter) (error? : Option ParseError) : Reporter × List Event :=
  match error? with
  | none => (reporter, [])
  | some error => reporter.report error

/-- The reporter after a number of calls. -/
def Reporter.toldAll (reporter : Reporter) (errors : List (Option ParseError)) : Reporter :=
  errors.foldl (fun reporter error? => (reporter.told error?).1) reporter

namespace Reporter

@[simp] theorem told_discarding (error? : Option ParseError) :
    discarding.told error? = (discarding, []) := by
  cases error? <;> rfl

@[simp] theorem told_collecting (kept : List ParseError) (error? : Option ParseError) :
    (collecting kept).told error? = (collecting (kept ++ error?.toList), []) := by
  cases error? with
  | none => simp [told]
  | some error => rfl

@[simp] theorem told_logging (error? : Option ParseError) :
    logging.told error? = (logging, error?.toList.map .warning) := by
  cases error? <;> rfl

@[simp] theorem toldAll_nil (reporter : Reporter) : reporter.toldAll [] = reporter := rfl

@[simp] theorem toldAll_cons (reporter : Reporter) (error? : Option ParseError)
    (errors : List (Option ParseError)) :
    reporter.toldAll (error? :: errors) = (reporter.told error?).1.toldAll errors := rfl

/-- A reporter that no error changes stays as it is. -/
theorem toldAll_of_unchanged {reporter : Reporter}
    (unchanged : ∀ error?, (reporter.told error?).1 = reporter)
    (errors : List (Option ParseError)) : reporter.toldAll errors = reporter := by
  induction errors with
  | nil => rfl
  | cons error? errors ih => rw [toldAll_cons, unchanged, ih]

@[simp] theorem toldAll_discarding (errors : List (Option ParseError)) :
    discarding.toldAll errors = discarding :=
  toldAll_of_unchanged (by simp) errors

@[simp] theorem toldAll_logging (errors : List (Option ParseError)) :
    logging.toldAll errors = logging :=
  toldAll_of_unchanged (by simp) errors

@[simp] theorem toldAll_collecting (kept : List ParseError) (errors : List (Option ParseError)) :
    (collecting kept).toldAll errors = collecting (kept ++ errors.filterMap id) := by
  induction errors generalizing kept with
  | nil => simp
  | cons error? errors ih =>
      rw [toldAll_cons, told_collecting, ih]
      cases error? <;> simp

end Reporter

def Event.ofToken (token : Token) : Event := .token token.kind token.start.line token.start.column

namespace TokenStream

open Reader (Moves)

/-- The stream after a number of calls of `next`. -/
def after : Nat → TokenStream → TokenStream
  | 0, stream => stream
  | count + 1, stream => after count stream.next.stream

/-- The call of `next` that comes after a number of others. -/
def call (stream : TokenStream) (count : Nat) : Step (Except Stop Token) :=
  (after count stream).next

/-- The results of the first calls of `next`. -/
def results (stream : TokenStream) (count : Nat) : List (Except Stop Token) :=
  (List.range count).map fun i => (stream.call i).result

@[simp] theorem after_zero (stream : TokenStream) : stream.after 0 = stream := rfl

@[simp] theorem after_add_one (stream : TokenStream) (count : Nat) :
    stream.after (count + 1) = stream.next.stream.after count := rfl

@[simp] theorem call_succ (stream : TokenStream) (count : Nat) :
    stream.call (count + 1) = stream.next.stream.call count := rfl

theorem after_succ (count : Nat) (stream : TokenStream) :
    after (count + 1) stream = (stream.call count).stream := by
  induction count generalizing stream with
  | zero => rfl
  | succ count ih => exact ih stream.next.stream

@[simp] theorem results_succ (stream : TokenStream) (count : Nat) :
    stream.results (count + 1) = stream.next.result :: stream.next.stream.results count := by
  simp only [results, List.range_succ_eq_map, List.map_cons, List.map_map]
  rfl

/-- The step that gives a token and reports the error in it, if there is one. -/
def gives (stream : TokenStream) (reader : Reader) (token : Token) (error? : Option ParseError) :
    Step (Except Stop Token) :=
  ⟨.ok token, (stream.reporter.told error?).2 ++ [.ofToken token],
    { stream with reader := reader, reporter := (stream.reporter.told error?).1 }⟩

/-- The step that is stopped. -/
def stops (stream : TokenStream) (reader : Reader) (stop : Stop) : Step (Except Stop Token) :=
  ⟨.error stop, [], { stream with reader := reader }⟩

theorem next_of_ok {stream : TokenStream} {lexeme : Lexeme} {unterminated : Option Unterminated}
    {reader : Reader} (h : Reader.lexeme stream.reader.begin = .ok (lexeme, unterminated) reader) :
    stream.next = stream.gives reader (tokenOf reader lexeme)
      (unterminated.map fun construct => ⟨construct, reader.position⟩) := by
  rw [next, h]
  cases unterminated <;> rfl

theorem next_of_error {stream : TokenStream} {stop : Stop} {reader : Reader}
    (h : Reader.lexeme stream.reader.begin = .error stop reader) :
    stream.next = stream.stops reader stop := by
  rw [next, h]
  rfl

/-- The token that a scan has just taken is the one read from the text in front of it. -/
theorem tokenOf_eq {r after : Reader} (fresh : r.taken = []) (moves : Moves r after)
    (htext : after.text = (Lexeme.read r.text).rest) :
    tokenOf after (Lexeme.read r.text).lexeme = (Lexeme.read r.text).token r.text r.position := by
  obtain ⟨keeps, hposition⟩ := moves.keeps
  generalize Lexeme.read r.text = scanned at htext ⊢
  rw [fresh, List.reverse_nil, List.nil_append, htext] at keeps
  rw [← keeps, tokenOf, Scanned.token, hposition]
  simp

/-- What a call of `next` does: it gives the token read from the text that is left, or it stops
where the source fails. -/
theorem next_cases (stream : TokenStream) :
    let r := stream.reader.begin
    let scanned := Lexeme.read r.text
    (∃ reader, Moves r reader ∧ reader.text = scanned.rest ∧
      stream.next = stream.gives reader (scanned.token r.text r.position)
        (scanned.parseError? r.position)) ∨
    (∃ stop reader last, Moves r last ∧ Reader.next last = .error stop reader ∧
      stream.next = stream.stops reader stop) := by
  intro r scanned
  have outcome := (Reader.reads_lexeme r).outcome
  cases hlexeme : Reader.lexeme r with
  | ok taken reader =>
      rw [hlexeme] at outcome
      obtain ⟨rfl, htext, moves⟩ := outcome
      refine .inl ⟨reader, moves, htext, ?_⟩
      rw [next_of_ok hlexeme, tokenOf_eq rfl moves htext, moves.keeps.2]
      rfl
  | error stop reader =>
      rw [hlexeme] at outcome
      obtain ⟨last, moves, hnext⟩ := outcome
      exact .inr ⟨stop, reader, last, moves, hnext, next_of_error hlexeme⟩

/-- A token that a call gives is the one at the front of the text that is left. -/
theorem token_of_next {stream : TokenStream} {token : Token} (h : stream.next.result = .ok token) :
    let r := stream.reader.begin
    token = (Lexeme.read r.text).token r.text r.position := by
  obtain ⟨reader, _, _, hnext⟩ | ⟨stop, reader, last, _, _, hnext⟩ := next_cases stream
  · rw [hnext] at h
    exact (Except.ok.inj h).symm
  · rw [hnext] at h
    cases h

/-- Over a source that does not fail, a call gives the next token of the text. -/
theorem next_of_no_failures {stream : TokenStream}
    (noFailures : stream.reader.input.source.failures = []) :
    let r := stream.reader.begin
    let scanned := Lexeme.read r.text
    let token := scanned.token r.text r.position
    ∃ reader, stream.next = stream.gives reader token (scanned.parseError? r.position) ∧
      reader.begin.text = scanned.rest ∧
      reader.begin.position = r.position.after token.representation ∧
      reader.input.source.failures = [] := by
  intro r scanned token
  obtain ⟨reader, moves, htext, hnext⟩ | ⟨stop, reader, last, moves, hnext, _⟩ := next_cases stream
  · refine ⟨reader, hnext, htext, ?_, moves.failures.trans noFailures⟩
    have htoken : token = tokenOf reader scanned.lexeme := (tokenOf_eq rfl moves htext).symm
    rw [htoken]
    change reader.position.after reader.taken.reverse = _
    rw [moves.keeps.2]
    rfl
  · obtain ⟨f, input, _, _, _, _, hread⟩ := Reader.next_error hnext
    have taken := Normalizer.failures_of_error hread
    rw [moves.failures] at taken
    exact absurd (noFailures.symm.trans taken) (by simp)

/-- The calls over a source that does not fail give the tokens of its text in order. -/
theorem results_eq_tokensFrom {stream : TokenStream}
    (noFailures : stream.reader.input.source.failures = []) :
    let tokens := tokensFrom stream.reader.begin.position stream.reader.begin.text
    stream.results tokens.length = tokens.map fun found => .ok found.1 := by
  intro tokens
  subst tokens
  generalize hstart : stream.reader.begin.position = start
  generalize htext : stream.reader.begin.text = text
  induction start, text using tokensFrom_induction generalizing stream with
  | endOfInput start =>
      obtain ⟨reader, hnext, _⟩ := next_of_no_failures noFailures
      rw [hstart, htext] at hnext
      rw [tokensFrom_nil, List.length_singleton, results_succ, hnext]
      rfl
  | token start text nonempty ih =>
      obtain ⟨reader, hnext, hrest, hposition, later⟩ := next_of_no_failures noFailures
      rw [hstart, htext] at hnext hposition
      rw [htext] at hrest
      rw [tokensFrom_of_ne_nil nonempty, List.length_cons, List.map_cons, results_succ, hnext]
      exact congrArg _ (ih later hposition hrest)

theorem iterate_of_going {stream : TokenStream} (going : stream.finished = false) :
    stream.iterate =
      ⟨some stream.next.result, stream.next.events,
        { stream.next.stream with finished := isLast stream.next.result }⟩ := by
  rw [iterate, going]
  rfl

theorem iterate_of_finished {stream : TokenStream} (ended : stream.finished = true) :
    stream.iterate = ⟨none, [], stream⟩ := by
  rw [iterate, ended]
  rfl

/-- Draining a source that does not fail gives the tokens of its text, and the reporter is told of
their errors. -/
theorem drainWithin_of_no_failures {stream : TokenStream} {fuel : Nat}
    (noFailures : stream.reader.input.source.failures = []) (going : stream.finished = false) :
    let tokens := tokensFrom stream.reader.begin.position stream.reader.begin.text
    tokens.length < fuel →
      (drainWithin fuel stream).result = tokens.map (fun found => .ok found.1) ∧
      (drainWithin fuel stream).stream.reporter =
        stream.reporter.toldAll (tokens.map Prod.snd) := by
  intro tokens
  subst tokens
  generalize hstart : stream.reader.begin.position = start
  generalize htext : stream.reader.begin.text = text
  induction start, text using tokensFrom_induction generalizing stream fuel with
  | endOfInput start =>
      intro enough
      obtain ⟨reader, hnext, _⟩ := next_of_no_failures noFailures
      rw [hstart, htext] at hnext
      rw [tokensFrom_nil] at enough ⊢
      obtain ⟨fuel, rfl⟩ : ∃ n, fuel = n + 2 := Nat.exists_eq_add_of_le' enough
      simp only [drainWithin, iterate_of_going going, hnext]
      exact ⟨rfl, rfl⟩
  | token start text nonempty ih =>
      intro enough
      obtain ⟨reader, hnext, hrest, hposition, later⟩ := next_of_no_failures noFailures
      rw [hstart, htext] at hnext hposition
      rw [htext] at hrest
      rw [tokensFrom_of_ne_nil nonempty, List.length_cons] at enough
      obtain ⟨fuel, rfl⟩ : ∃ n, fuel = n + 1 := Nat.exists_eq_add_of_le' (Nat.one_le_of_lt enough)
      have notLast : isLast stream.next.result = false := by
        rw [hnext]
        exact beq_eq_false_iff_ne.mpr (Lexeme.kind_read_ne_endOfInput nonempty)
      rw [tokensFrom_of_ne_nil nonempty]
      simp only [drainWithin, iterate_of_going going, notLast]
      rw [hnext]
      let behind : TokenStream :=
        ⟨reader, (stream.reporter.told ((Lexeme.read text).parseError? start)).1, false⟩
      obtain ⟨results, told⟩ :=
        @ih behind fuel later rfl hposition hrest (Nat.lt_of_succ_lt_succ enough)
      exact ⟨congrArg _ results, told⟩

/-- A stream over a source that does not fail gives all tokens of its text and reports all errors in
it. -/
theorem drain_of_no_failures {stream : TokenStream}
    (noFailures : stream.reader.input.source.failures = []) (going : stream.finished = false) :
    let tokens := tokensFrom stream.reader.begin.position stream.reader.begin.text
    stream.drain.result = tokens.map (fun found => .ok found.1) ∧
      stream.drain.stream.reporter = stream.reporter.toldAll (tokens.map Prod.snd) := by
  have bound := length_tokensFrom_le stream.reader.begin.position stream.reader.begin.text
  have within : stream.reader.begin.text.length ≤ stream.reader.remaining := by
    rw [Reader.text, List.length_append]
    exact Nat.add_le_add_left (Normalizer.length_text_le _) _
  exact drainWithin_of_no_failures noFailures going (by omega)

/-- The stream over units gives the tokens of their normalized text, and its reporter is told of the
errors. -/
theorem drain_units (units : List UInt32) (reporter : Reporter) :
    let tokens := tokensFrom .start (Units.normalize units)
    let drained := (ofSource (units.map .unit) reporter).drain
    drained.result = (tokens.map Prod.fst).map .ok ∧
      drained.stream.reporter = reporter.toldAll (tokens.map Prod.snd) := by
  intro tokens drained
  let stream := ofSource (units.map .unit) reporter
  have noFailures : stream.reader.input.source.failures = [] := Source.failures_units units
  have htext : stream.reader.begin.text = Units.normalize units :=
    Normalizer.text_ofSource_units units
  obtain ⟨results, told⟩ := drain_of_no_failures noFailures rfl
  rw [htext] at results told
  rw [List.map_map]
  exact ⟨results, told⟩

/-- The stream over a text gives its tokens and reports its errors. -/
theorem drain_ofText (text : Text) :
    let drained := (ofSource (Source.ofText text) (.collecting [])).drain
    drained.result = (tokenize text).map .ok ∧
      drained.stream.reporter = .collecting (parseErrors text) := by
  obtain ⟨results, told⟩ := drain_units (Units.ofText text) (.collecting [])
  refine ⟨results, told.trans ((Reporter.toldAll_collecting [] _).trans ?_)⟩
  rw [List.filterMap_map]
  rfl

end TokenStream

end CssSyntax
