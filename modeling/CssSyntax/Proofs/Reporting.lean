import Mathlib.Data.List.Infix
import CssSyntax.Proofs.Decoding
import CssSyntax.Proofs.Endings

/-!
What a run reports. A call reports an error for a comment or a string whose text goes without the
mark that closes it, and for nothing else. Such a token has come to the end of the input, where no
later call finds anything to report, so a run reports one error at most.
-/

namespace CssSyntax

open Text

/-- What the text of a token leaves open: a comment that its closing mark does not occur in behind
the opening one, or a string without an unescaped quote of the sort that it begins with. -/
def Token.unclosed? (token : Token) : Option Unterminated :=
  match token.kind, token.representation with
  | .comment, text => if ['*', '/'] <:+: text.drop 2 then none else some .comment
  | .string, quote :: inside => if .plain quote ∈ glyphs inside then none else some .string
  | _, _ => none

namespace Token

variable {token : Token}

theorem unclosed?_of_kind (comment : token.kind ≠ .comment) (string : token.kind ≠ .string) :
    token.unclosed? = none := by
  unfold unclosed?
  split
  · next kind => exact absurd kind comment
  · next kind _ => exact absurd kind string
  · rfl

theorem unclosed?_of_comment (kind : token.kind = .comment) :
    token.unclosed? =
      if ['*', '/'] <:+: token.representation.drop 2 then none else some .comment := by
  unfold unclosed?
  rw [kind]

theorem unclosed?_of_string {quote : Char} {inside : Text} (kind : token.kind = .string)
    (text : token.representation = quote :: inside) :
    token.unclosed? = if .plain quote ∈ glyphs inside then none else some .string := by
  unfold unclosed?
  rw [kind, text]

end Token

namespace Lexeme

theorem unclosed?_readComment (inside : Text) (place : Position) :
    ((readComment inside).token ('/' :: '*' :: inside) place).unclosed? =
      (readComment inside).unterminated := by
  have split : '/' :: '*' :: inside =
      ('/' :: '*' :: ((Comment.read inside).content ++
        if (Comment.read inside).closed then ['*', '/'] else [])) ++ (readComment inside).rest :=
    congrArg (['/', '*'] ++ ·) (Comment.split_read inside)
  rw [Token.unclosed?_of_comment rfl, Scanned.representation_of_split split place,
    List.drop_succ_cons, List.drop_succ_cons, List.drop_zero]
  cases closed : (Comment.read inside).closed with
  | true =>
      have found : ['*', '/'] <:+: (Comment.read inside).content ++ ['*', '/'] :=
        (List.suffix_append ..).isInfix
      simp only [readComment, closed, if_true, if_pos found]
  | false =>
      have unclosed := Comment.closing_notIn_content inside
      simp only [readComment, closed, Bool.false_eq_true, if_false, List.append_nil,
        if_neg unclosed]

theorem unclosed?_readString {quote : Char} (isQuote : quote = '"' ∨ quote = '\'')
    (inside : Text) (place : Position) :
    ((readString quote inside).token (quote :: inside) place).unclosed? =
      (readString quote inside).unterminated := by
  have notBackslash : '\\' ≠ quote := by rcases isQuote with rfl | rfl <;> decide
  obtain ⟨front, closing, split, closes, plain, -⟩ := Quoted.glyphs_read notBackslash inside
  have covered : ((readString quote inside).token (quote :: inside) place).representation =
      quote :: (front ++ closing).flatMap Glyph.text :=
    Scanned.representation_of_split (congrArg (quote :: ·) (eq_append_of_glyphs split)) place
  have unquoted : .plain quote ∉ front := fun mem => (plain quote mem).1 rfl
  cases ending : (Quoted.read quote inside).ending with
  | quote =>
      have kind : (readString quote inside).lexeme.kind = .string := by simp [readString, ending]
      rw [ending, if_pos rfl] at closes
      rw [Token.unclosed?_of_string kind covered, glyphs_flatMap_text split, closes,
        if_pos List.mem_concat_self, readString, ending]
      rfl
  | endOfInput =>
      have kind : (readString quote inside).lexeme.kind = .string := by simp [readString, ending]
      rw [ending, if_neg (by decide)] at closes
      rw [Token.unclosed?_of_string kind covered, glyphs_flatMap_text split, closes,
        List.append_nil, if_neg unquoted, readString, ending]
      rfl
  | lineFeed =>
      have kind : (readString quote inside).lexeme.kind = .badString := by simp [readString, ending]
      rw [Token.unclosed?_of_kind (by simp [Scanned.token, kind]) (by simp [Scanned.token, kind]),
        readString, ending]
      rfl

/-- The end of the input leaves open nothing but what starts like a comment or like a string. -/
theorem start_of_unterminated {text : Text} {construct : Unterminated}
    (h : (read text).unterminated = some construct) :
    (∃ inside, text = '/' :: '*' :: inside) ∨
      ∃ quote inside, text = quote :: inside ∧ (quote = '"' ∨ quote = '\'') := by
  have reading := reading_read text
  generalize read text = scanned at h reading
  cases reading with
  | @string quote inside isQuote => exact .inr ⟨quote, inside, rfl, isQuote⟩
  | @comment inside => exact .inl ⟨inside, rfl⟩
  | numeric =>
      rw [unterminated_readNumeric] at h
      cases h
  | identLike =>
      rw [unterminated_readIdentLike] at h
      cases h
  | _ => cases h

/-- What the end of the input has left open is what the text of the token leaves open. -/
@[simp] theorem unclosed?_read (text : Text) (place : Position) :
    ((read text).token text place).unclosed? = (read text).unterminated := by
  have kept {scanned : Scanned} {kinds : List Kind} (mem : scanned.lexeme.kind ∈ kinds)
      (apart : ∀ kind ∈ kinds, kind ≠ .comment ∧ kind ≠ .string) :
      (scanned.token text place).unclosed? = none :=
    Token.unclosed?_of_kind (apart _ mem).1 (apart _ mem).2
  have reading := reading_read text
  generalize read text = scanned at reading ⊢
  cases reading with
  | @string quote inside isQuote => exact unclosed?_readString isQuote inside place
  | @comment inside => exact unclosed?_readComment inside place
  | @symbol c kind rest symbol => exact kept (kind_of_symbol symbol) (by decide)
  | @numeric c rest after n =>
      rw [unterminated_readNumeric]
      exact kept (kind_readNumeric n after) (by decide)
  | identLike =>
      rw [unterminated_readIdentLike]
      exact kept (kind_readIdentLike _) (by decide)
  | _ => rfl

end Lexeme

namespace Reader

variable {r after : Reader}

/-- A comment goes unclosed only at the end; at a failure it is not read. -/
theorem atEnd_of_comment {star : Bool} {found content : Text}
    (h : comment star found r = .ok (content, false) after) : after.AtEnd := by
  fun_induction comment star found r with
  | case1 => cases h
  | case2 star found r ended hnext =>
      cases h
      obtain ⟨atEnd, rfl⟩ := atEnd_of_next hnext
      exact atEnd
  | case3 => cases h
  | case4 star found r c middle hnext more ih => exact ih h

theorem atEnd_of_quoted {quote : Char} {found content : Text}
    (h : quoted quote found r = .ok (content, .endOfInput) after) : after.AtEnd := by
  fun_induction quoted quote found r with
  | case1 => cases h
  | case2 found r ended hnext =>
      cases h
      obtain ⟨atEnd, rfl⟩ := atEnd_of_next hnext
      exact atEnd
  | case3 => cases h
  | case4 =>
      obtain ⟨_, _, _, h⟩ := bind_eq_ok h
      cases h
  | case5 => cases h
  | case6 found r middle hnext e later hescape notQuote notFeed ih => exact ih h
  | case7 found r c middle hnext more notFeed notEscape ih => exact ih h

/-- A lexeme that the end of the input leaves open ends there, and not in front of a failure. -/
theorem atEnd_of_unterminated {found : Lexeme} {construct : Unterminated}
    (h : lexeme r = .ok (found, some construct) after) : after.AtEnd := by
  have outcome := (reads_lexeme r).outcome
  rw [h] at outcome
  have unclosed : (Lexeme.read r.text).unterminated = some construct :=
    (congrArg Prod.snd outcome.1).symm
  obtain ⟨first, s, hfirst, h⟩ := bind_eq_ok h
  have taken := (yields_next r).outcome
  rw [hfirst] at taken
  obtain ⟨rfl, hs, -⟩ := taken
  rcases Lexeme.start_of_unterminated unclosed with
    ⟨inside, htext⟩ | ⟨quote, inside, htext, isQuote⟩
  · rw [htext] at h hs
    obtain ⟨star, t, hstar, h⟩ := bind_eq_ok h
    have second := (yields_next s).outcome
    rw [hstar, hs] at second
    obtain ⟨rfl, -⟩ := second
    obtain ⟨⟨content, closed⟩, u, hcomment, h⟩ := bind_eq_ok h
    cases closed with
    | true => cases h
    | false =>
        cases h
        exact atEnd_of_comment hcomment
  · rw [htext] at h
    simp only [List.head?_cons, lexemeFrom_quote isQuote] at h
    obtain ⟨⟨content, ending⟩, t, hquoted, h⟩ := bind_eq_ok h
    cases ending with
    | endOfInput =>
        cases h
        exact atEnd_of_quoted hquoted
    | quote => cases h
    | lineFeed => cases h

end Reader

namespace TokenStream

open Reader (AtEnd)

variable {stream : TokenStream}

/-- The error that the result of a call calls for: its token leaves something open. -/
def errorIn : Except Stop Token → Option ParseError
  | .ok token => token.unclosed?.map fun construct => ⟨construct, token.start⟩
  | .error _ => none

/-- The note that a call leaves of its result. -/
def traces : Except Stop Token → List Event
  | .ok token => [.ofToken token]
  | .error _ => []

/-- A call tells its reporter what its result calls for, and nothing else. -/
theorem next_reports (stream : TokenStream) :
    let told := stream.reporter.told (errorIn stream.next.result)
    stream.next.stream.reporter = told.1 ∧
      stream.next.events = told.2 ++ traces stream.next.result := by
  obtain ⟨reader, -, -, hnext⟩ | ⟨stop, reader, last, -, -, hnext⟩ := next_cases stream
  · have called : errorIn stream.next.result =
        (Lexeme.read stream.reader.begin.text).parseError? stream.reader.begin.position := by
      rw [hnext]
      exact congrArg (Option.map _) (Lexeme.unclosed?_read _ _)
    rw [called, hnext]
    exact ⟨rfl, rfl⟩
  · rw [hnext]
    exact ⟨rfl, rfl⟩

/-- Behind a call that reports something, nothing is left to read. -/
theorem atEnd_of_errorIn (h : (errorIn stream.next.result).isSome) :
    stream.next.stream.reader.AtEnd := by
  cases hlexeme : Reader.lexeme stream.reader.begin with
  | error stop reader =>
      rw [next_of_error hlexeme] at h
      cases h
  | ok taken reader =>
      obtain ⟨lexeme, unterminated⟩ := taken
      have outcome := (Reader.reads_lexeme stream.reader.begin).outcome
      rw [hlexeme] at outcome
      obtain ⟨same, htext, moves⟩ := outcome
      obtain ⟨rfl, rfl⟩ := Prod.mk.inj same
      rw [next_of_ok hlexeme, gives, tokenOf_eq rfl moves htext] at h
      change (Option.map _ (Token.unclosed? _)).isSome at h
      rw [Lexeme.unclosed?_read, Option.isSome_map] at h
      obtain ⟨construct, unclosed⟩ := Option.isSome_iff_exists.mp h
      rw [unclosed] at hlexeme
      rw [next_of_ok hlexeme]
      exact Reader.atEnd_of_unterminated hlexeme

theorem results_of_atEnd (h : stream.reader.AtEnd) (count : Nat) :
    (stream.results count).filterMap errorIn = [] := by
  rw [List.filterMap_eq_nil_iff]
  intro result mem
  obtain ⟨later, -, rfl⟩ := List.mem_map.mp mem
  rw [call_of_atEnd h]
  rfl

/-- Once a call has reported something there is nothing left to report. -/
theorem length_errors_le (stream : TokenStream) (count : Nat) :
    ((stream.results count).filterMap errorIn).length ≤ 1 := by
  induction count generalizing stream with
  | zero => exact Nat.zero_le 1
  | succ count ih =>
      rw [results_succ]
      cases first : errorIn stream.next.result with
      | none =>
          rw [List.filterMap_cons_none first]
          exact ih stream.next.stream
      | some error =>
          have ended := atEnd_of_errorIn (Option.isSome_of_eq_some first)
          rw [List.filterMap_cons_some first, results_of_atEnd ended]
          exact Nat.le_refl 1

theorem reporter_after_calls (stream : TokenStream) (count : Nat) :
    (stream.after count).reporter =
      stream.reporter.toldAll ((stream.results count).map errorIn) := by
  induction count generalizing stream with
  | zero => rfl
  | succ count ih =>
      rw [after_add_one, results_succ, List.map_cons, Reporter.toldAll_cons,
        ← (next_reports stream).1]
      exact ih stream.next.stream

theorem next_of_collecting {kept : List ParseError}
    (collecting : stream.reporter = .collecting kept) :
    stream.next.stream.reporter = .collecting (kept ++ (errorIn stream.next.result).toList) ∧
      stream.next.events = traces stream.next.result := by
  simpa [collecting] using next_reports stream

theorem next_of_logging (logging : stream.reporter = .logging) :
    stream.next.stream.reporter = .logging ∧
      stream.next.events =
        (errorIn stream.next.result).toList.map .warning ++ traces stream.next.result := by
  simpa [logging] using next_reports stream

theorem next_of_discarding (discarding : stream.reporter = .discarding) :
    stream.next.stream.reporter = .discarding ∧
      stream.next.events = traces stream.next.result := by
  simpa [discarding] using next_reports stream

theorem after_of_collecting {kept : List ParseError}
    (collecting : stream.reporter = .collecting kept) (count : Nat) :
    (stream.after count).reporter =
      .collecting (kept ++ (stream.results count).filterMap errorIn) := by
  rw [reporter_after_calls, collecting, Reporter.toldAll_collecting, List.filterMap_map]
  rfl

theorem after_of_logging (logging : stream.reporter = .logging) (count : Nat) :
    (stream.after count).reporter = .logging := by
  rw [reporter_after_calls, logging, Reporter.toldAll_logging]

theorem after_of_discarding (discarding : stream.reporter = .discarding) (count : Nat) :
    (stream.after count).reporter = .discarding := by
  rw [reporter_after_calls, discarding, Reporter.toldAll_discarding]

/-- Over any source, a call reports an error exactly if it gives a comment or a string whose text
goes without its closing mark. It reports that one, with the place of the token, and has then come
to the end of the input; all calls together report one error at most. A collecting reporter keeps
the errors of the calls in order, a logging one makes a warning of each, before the trace of its
token, and a discarding one leaves nothing of them. -/
theorem run_reports_unclosed (source : Source) (count : Nat) :
    let logged := (ofSource source .logging).call count
    let discarded := (ofSource source .discarding).call count
    (∀ reporter,
      let stream := ofSource source reporter
      let call := stream.call count
      ((errorIn call.result).isSome → call.stream.reader.AtEnd) ∧
        ((stream.results count).filterMap errorIn).length ≤ 1) ∧
    (∀ kept,
      let stream := ofSource source (.collecting kept)
      let call := stream.call count
      let earlier := (stream.results count).filterMap errorIn
      (stream.after count).reporter = .collecting (kept ++ earlier) ∧
        call.stream.reporter = .collecting (kept ++ earlier ++ (errorIn call.result).toList) ∧
        call.events = traces call.result) ∧
    (logged.stream.reporter = .logging ∧
      logged.events = (errorIn logged.result).toList.map .warning ++ traces logged.result) ∧
    discarded.stream.reporter = .discarding ∧ discarded.events = traces discarded.result := by
  intro logged discarded
  refine ⟨?_, ?_, ?_, ?_⟩
  · intro reporter stream call
    exact ⟨atEnd_of_errorIn, length_errors_le stream count⟩
  · intro kept stream call earlier
    have before : (stream.after count).reporter = .collecting (kept ++ earlier) :=
      after_of_collecting rfl count
    exact ⟨before, next_of_collecting before⟩
  · apply next_of_logging
    exact after_of_logging rfl count
  · apply next_of_discarding
    exact after_of_discarding rfl count

end TokenStream

end CssSyntax
