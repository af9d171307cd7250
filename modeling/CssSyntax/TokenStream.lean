import CssSyntax.Reader.Lexeme
import CssSyntax.Token

/-!
Streams of tokens: a source read token by token on demand. Errors in the text go to a reporter and
never stop the stream; failures of the source are handed on and cost the token they hit.
-/

namespace CssSyntax

/-- Where parse errors go. -/
inductive Reporter where
  | discarding
  /-- Keeps the errors, in order. -/
  | collecting (errors : List ParseError)
  /-- Makes a warning of every error. -/
  | logging
  deriving DecidableEq, Repr

/-- Notes that a stream leaves for whoever watches it. -/
inductive Event where
  | warning (error : ParseError)
  | token (kind : Kind) (line column : Nat)
  deriving DecidableEq, Repr

namespace Event

def level : Event → String
  | warning _ => "WARN"
  | token .. => "TRACE"

def message : Event → String
  | warning error => error.construct.message
  | token .. => "token"

end Event

namespace Reporter

def report (reporter : Reporter) (error : ParseError) : Reporter × List Event :=
  match reporter with
  | discarding => (discarding, [])
  | collecting errors => (collecting (errors ++ [error]), [])
  | logging => (logging, [.warning error])

/-- The errors kept so far, by a reporter that keeps them. -/
def collected? : Reporter → Option (List ParseError)
  | collecting errors => some errors
  | _ => none

end Reporter

/-- A source being read, the reporter of its errors, and whether the sequence of its tokens has
come to an end. -/
structure TokenStream where
  reader : Reader
  reporter : Reporter
  finished : Bool := false

namespace TokenStream

def ofSource (source : Source) (reporter : Reporter) : TokenStream :=
  { reader := .ofSource source, reporter := reporter }

/-- One step of a stream: its result, the notes it left, and the stream after it. -/
structure Step (α : Type) where
  result : α
  events : List Event
  stream : TokenStream

/-- The token of a lexeme that a reader has just taken. -/
def tokenOf (reader : Reader) (lexeme : Lexeme) : Token where
  toLexeme := lexeme
  representation := reader.taken.reverse
  start := reader.position

/-- Reads the next token. At the end of the input it is the end token, again and again. -/
def next (stream : TokenStream) : Step (Except Stop Token) :=
  match Reader.lexeme stream.reader.begin with
  | .error stop reader => ⟨.error stop, [], { stream with reader := reader }⟩
  | .ok (lexeme, unterminated) reader =>
      let token := tokenOf reader lexeme
      let traced := Event.token token.kind token.start.line token.start.column
      match unterminated with
      | none => ⟨.ok token, [traced], { stream with reader := reader }⟩
      | some construct =>
          let (reporter, events) := stream.reporter.report ⟨construct, token.start⟩
          ⟨.ok token, events ++ [traced], { stream with reader := reader, reporter := reporter }⟩

/-- Whether the sequence of tokens ends with a result. -/
def isLast : Except Stop Token → Bool
  | .ok token => token.isEndOfInput
  | .error _ => true

/-- The next token of the sequence that ends with the end of the input or with the first failure;
`none` once it has ended. -/
def iterate (stream : TokenStream) : Step (Option (Except Stop Token)) :=
  if stream.finished then ⟨none, [], stream⟩
  else
    let step := stream.next
    ⟨some step.result, step.events, { step.stream with finished := isLast step.result }⟩

/-- At most `fuel` further tokens of the sequence. -/
def drainWithin : Nat → TokenStream → Step (List (Except Stop Token))
  | 0, stream => ⟨[], [], stream⟩
  | fuel + 1, stream =>
      let step := stream.iterate
      match step.result with
      | none => ⟨[], step.events, step.stream⟩
      | some result =>
          let later := drainWithin fuel step.stream
          ⟨result :: later.result, step.events ++ later.events, later.stream⟩

/-- All further tokens of the sequence. There are never more than code points to come, the end
token or a failure, and the `none` after it. -/
def drain (stream : TokenStream) : Step (List (Except Stop Token)) :=
  drainWithin (stream.reader.remaining + 2) stream

/-- What is left of the source. Text that was read ahead of the last token is lost. -/
def intoSource (stream : TokenStream) : Source := stream.reader.input.source

end TokenStream

end CssSyntax
