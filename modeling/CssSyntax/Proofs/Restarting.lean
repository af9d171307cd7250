import CssSyntax.Proofs.Coverage
import CssSyntax.Proofs.Recovery

/-!
Starting again at the boundary of a token. Whatever a stream has read ahead, given back or kept when
it comes to a token, what it gives from there on is what a fresh stream gives over the text that is
left, with every place counted from further back.
-/

namespace CssSyntax

/-- The tokens of a text that stands behind another one, and the errors in it. -/
theorem tokensFrom_behind (before : Text) {start : Position} (counted : start.Counted)
    (text : Text) :
    tokensFrom (start.behind before) text =
      (tokensFrom start text).map fun found =>
        (found.1.behind before, found.2.map (ParseError.behind before)) := by
  induction start, text using tokensFrom_induction with
  | endOfInput start =>
      rw [tokensFrom_nil, tokensFrom_nil]
      rfl
  | token start text nonempty ih =>
      have later := ih (counted.after _)
      rw [Position.behind_after before counted] at later
      rw [tokensFrom_of_ne_nil nonempty, tokensFrom_of_ne_nil nonempty, List.map_cons, ← later]
      simp only [Scanned.token, Scanned.parseError?, Token.behind, ParseError.behind,
        Option.map_map, Function.comp_def]

/-- From any of its tokens on, a normal text has the tokens of what is left of it. -/
theorem tokensFrom_drop {text : Text} (normal : text.IsNormal) {k : Nat}
    (within : k < (tokensFrom .start text).length) :
    let tokens := (tokensFrom .start text).map Prod.fst
    let before := (tokens.take k).flatMap Token.representation
    let rest := (tokens.drop k).flatMap Token.representation
    Text.IsNormal rest ∧
      (tokensFrom .start text).drop k = (tokensFrom .start rest).map fun found =>
        (found.1.behind before, found.2.map (ParseError.behind before)) := by
  intro tokens before rest
  obtain ⟨behind, split, left⟩ :=
    tokensFrom_split (List.take_append_drop k (tokensFrom .start text)).symm (by simpa using within)
  have covered : rest = behind := by
    rw [← (covers_tokensFrom _ behind).flatMap_representation, ← left, List.map_drop]
  rw [List.map_take, ← Position.behind_start, tokensFrom_behind _ Position.counted_start] at left
  rw [covered]
  refine ⟨?_, left⟩
  rw [split] at normal
  exact (Text.isNormal_append.mp normal).2

namespace TokenStream

/-- Over a source that does not fail, each call tells the reporter of the error in its token. -/
theorem reporter_after {stream : TokenStream}
    (noFailures : stream.reader.input.source.failures = []) (count : Nat) :
    let tokens := tokensFrom stream.reader.begin.position stream.reader.begin.text
    count ≤ tokens.length →
      (stream.after count).reporter =
        stream.reporter.toldAll ((tokens.take count).map Prod.snd) := by
  intro tokens
  subst tokens
  generalize hstart : stream.reader.begin.position = start
  generalize htext : stream.reader.begin.text = text
  induction start, text using tokensFrom_induction generalizing stream count with
  | endOfInput start =>
      intro within
      obtain ⟨reader, hnext, _⟩ := next_of_no_failures noFailures
      rw [hstart, htext] at hnext
      rw [tokensFrom_nil] at within ⊢
      cases count with
      | zero => rfl
      | succ count =>
          obtain rfl : count = 0 := Nat.le_zero.mp (Nat.le_of_succ_le_succ within)
          change stream.next.stream.reporter = _
          rw [hnext]
          rfl
  | token start text nonempty ih =>
      intro within
      obtain ⟨reader, hnext, hrest, hposition, later⟩ := next_of_no_failures noFailures
      rw [hstart, htext] at hnext hposition
      rw [htext] at hrest
      rw [tokensFrom_of_ne_nil nonempty] at within ⊢
      cases count with
      | zero => rfl
      | succ count =>
          let behind : TokenStream :=
            ⟨reader, (stream.reporter.told ((Lexeme.read text).parseError? start)).1,
              stream.finished⟩
          have step : stream.next.stream = behind := by rw [hnext]; rfl
          rw [after_add_one, step]
          exact @ih behind later count hposition hrest (Nat.le_of_succ_le_succ within)

/-- From any of its tokens on, a stream over a source that does not fail gives what a fresh stream
gives over the text of the tokens that are left, and reports the same errors. Only the places
differ, since they count the text before as well. -/
theorem drain_restarts (units : List UInt32) :
    let stream := ofSource (units.map .unit) (.collecting [])
    ∃ tokens : List Token, stream.drain.result = tokens.map .ok ∧
      ∀ k < tokens.length,
        let before := (tokens.take k).flatMap Token.representation
        let rest := (tokens.drop k).flatMap Token.representation
        let fresh := ofSource (Source.ofText rest) (.collecting [])
        ∃ (again : List Token) (kept errors : List ParseError),
          fresh.drain.result = again.map .ok ∧
          tokens.drop k = again.map (Token.behind before) ∧
          (stream.after k).reporter = .collecting kept ∧
          fresh.drain.stream.reporter = .collecting errors ∧
          stream.drain.stream.reporter =
            .collecting (kept ++ errors.map (ParseError.behind before)) := by
  intro stream
  let text := Units.normalize units
  obtain ⟨results, told⟩ := drain_units units (.collecting [])
  refine ⟨(tokensFrom .start text).map Prod.fst, results, ?_⟩
  intro k within before rest fresh
  rw [List.length_map] at within
  obtain ⟨normal, left⟩ := tokensFrom_drop (Units.isNormal_normalize units) within
  obtain ⟨again, errors⟩ := drain_ofText rest
  have whole : Units.normalize (Units.ofText rest) = rest := Units.normalize_ofText normal
  rw [tokenize, whole] at again
  rw [parseErrors, whole] at errors
  have noFailures : stream.reader.input.source.failures = [] := Source.failures_units units
  have kept := reporter_after noFailures k
  rw [show stream.reader.begin.text = text from Normalizer.text_ofSource_units units] at kept
  refine ⟨_, (((tokensFrom .start text).take k).map Prod.snd).filterMap id, _, again, ?_, ?_,
    errors, ?_⟩
  · rw [← List.map_drop, left, List.map_map, List.map_map]
    rfl
  · exact (kept (Nat.le_of_lt within)).trans (Reporter.toldAll_collecting [] _)
  · have split := congrArg (List.map Prod.snd) (List.take_append_drop k (tokensFrom .start text))
    rw [List.map_append, left] at split
    refine told.trans ((Reporter.toldAll_collecting [] _).trans ?_)
    rw [← split, List.nil_append, List.filterMap_append]
    simp only [List.filterMap_map, List.map_filterMap, Function.comp_def, id]
    rfl

end TokenStream

end CssSyntax
