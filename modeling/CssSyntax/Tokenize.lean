import CssSyntax.Token
import CssSyntax.Units

/-!
The tokens of a whole text. The text is normalized first; then one lexeme after another is read
off its front, so a token depends on nothing but the text from its start on.
-/

namespace CssSyntax

namespace Scanned

/-- The token of a lexeme that was read off `text` at `start`. -/
def token (scanned : Scanned) (text : Text) (start : Position) : Token where
  toLexeme := scanned.lexeme
  representation := text.take (text.length - scanned.rest.length)
  start := start

def parseError? (scanned : Scanned) (start : Position) : Option ParseError :=
  scanned.unterminated.map fun construct => ⟨construct, start⟩

end Scanned

/-- The tokens of a normalized text that starts at a given place, through the end of the input,
each with the error reported for it. -/
def tokensFrom (start : Position) (text : Text) : List (Token × Option ParseError) :=
  let scanned := Lexeme.read text
  let token := scanned.token text start
  if _h : text = [] then [(token, none)]
  else
    (token, scanned.parseError? start) ::
      tokensFrom (start.after token.representation) scanned.rest
termination_by text.length
decreasing_by exact Lexeme.length_read_lt _h

/-- The token at the end of a text. -/
def endToken (start : Position) : Token where
  toLexeme := .endOfInput
  representation := []
  start := start

@[simp] theorem toLexeme_endToken (start : Position) :
    (endToken start).toLexeme = .endOfInput := rfl

@[simp] theorem tokensFrom_nil (start : Position) :
    tokensFrom start [] = [(endToken start, none)] := by
  rw [tokensFrom, dif_pos rfl]
  rfl

theorem tokensFrom_of_ne_nil {text : Text} (h : text ≠ []) (start : Position) :
    tokensFrom start text =
      ((Lexeme.read text).token text start, (Lexeme.read text).parseError? start) ::
        tokensFrom
          (start.after ((Lexeme.read text).token text start).representation)
          (Lexeme.read text).rest := by
  rw [tokensFrom, dif_neg h]

/-- Induction along the tokens of a text. -/
@[elab_as_elim]
theorem tokensFrom_induction {motive : Position → Text → Prop}
    (endOfInput : ∀ start, motive start [])
    (token : ∀ start text, text ≠ [] →
      motive (start.after ((Lexeme.read text).token text start).representation)
        (Lexeme.read text).rest → motive start text)
    (start : Position) (text : Text) : motive start text :=
  tokensFrom.induct motive endOfInput token start text

/-- The tokens of a text, through the end of the input. -/
def tokenize (text : Text) : List Token :=
  (tokensFrom .start (Units.normalize (Units.ofText text))).map Prod.fst

/-- The errors in a text. -/
def parseErrors (text : Text) : List ParseError :=
  (tokensFrom .start (Units.normalize (Units.ofText text))).filterMap Prod.snd

end CssSyntax
