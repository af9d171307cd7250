import CssSyntax.Lexeme
import CssSyntax.Position

/-!
Tokens, which are lexemes with the text they were read from and its place, and the errors that
are reported beside them.
-/

namespace CssSyntax

structure Token extends Lexeme where
  /-- The normalized text that the token covers. -/
  representation : Text
  start : Position
  deriving DecidableEq, Repr

def Token.isEndOfInput (token : Token) : Bool := token.kind == .endOfInput

def Unterminated.message : Unterminated → String
  | comment => "end of input in comment"
  | string => "end of input in string"

/-- The end of the input inside a token, with the place where that token starts. Tokens of an error
kind are not reported. -/
structure ParseError where
  construct : Unterminated
  start : Position
  deriving DecidableEq, Repr

def ParseError.message (error : ParseError) : String :=
  error.construct.message ++ " at " ++ toString error.start.line ++ ":" ++
    toString error.start.column

end CssSyntax
