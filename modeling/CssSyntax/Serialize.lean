import CssSyntax.Lexeme
import CssSyntax.Numeric.Written

/-!
The CSS text of tokens, made from their decoded values rather than from the text they were read
from.
-/

namespace CssSyntax

namespace Numeric

/-- A numeric token in pieces. Only a dimension shows its unit. -/
def pieces (kind : Kind) (n : Numeric) : List Text :=
  n.numberPieces ++
    match kind, n.unit with
    | .percentage, _ => [['%']]
    | .dimension, some unit => unitPieces unit
    | _, _ => []

end Numeric

namespace Lexeme

/-- The text of a token in the pieces in which it is written. A bad string gets no closing quote,
and a bad url and a comment are written as they are. -/
def pieces (lexeme : Lexeme) : List Text :=
  match lexeme.kind with
  | .ident => Identifier.pieces lexeme.value
  | .function => Identifier.pieces lexeme.value ++ [['(']]
  | .atKeyword => ['@'] :: Identifier.pieces lexeme.value
  | .hash =>
      ['#'] ::
        if lexeme.isIdLike then Identifier.pieces lexeme.value else Name.pieces lexeme.value
  | .string => Quoted.pieces lexeme.value
  | .badString => ['"'] :: Quoted.contentPieces lexeme.value
  | .url => ['u', 'r', 'l', '('] :: Url.contentPieces lexeme.value ++ [[')']]
  | .badUrl => [['u', 'r', 'l', '('], lexeme.value, [')']]
  | .comment => [['/', '*'], lexeme.value, ['*', '/']]
  | .number | .percentage | .dimension =>
      match lexeme.numeric with
      | some numeric => numeric.pieces lexeme.kind
      | none => [lexeme.value]
  | .endOfInput => []
  | _ => [lexeme.value]

/-- The CSS text of a token. -/
def css (lexeme : Lexeme) : Text := lexeme.pieces.flatten

end Lexeme

/-- The CSS text of a list of tokens. -/
def serialize (lexemes : List Lexeme) : Text := (lexemes.map Lexeme.css).flatten

end CssSyntax
