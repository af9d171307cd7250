import CssSyntax.Comment
import CssSyntax.Kind
import CssSyntax.Lookahead
import CssSyntax.Name
import CssSyntax.Numeral
import CssSyntax.Numeric
import CssSyntax.Quoted
import CssSyntax.Url

/-!
Lexemes, the tokens of a text without their place in it, and how one is read off the front of a
normalized text.
-/

namespace CssSyntax

/-- What a token says, wherever it stands: its kind, its value with escapes resolved and marks
taken off, the payload of a number, and whether a hash could be an identifier. -/
structure Lexeme where
  kind : Kind
  value : Text
  numeric : Option Numeric := none
  isIdLike : Bool := false
  deriving DecidableEq, Repr

/-- The constructs that the end of the input can leave open. -/
inductive Unterminated where
  | comment
  | string
  deriving DecidableEq, Repr

/-- A lexeme read off the front of a text. -/
structure Scanned where
  lexeme : Lexeme
  /-- What the end of the input left open, if the lexeme ended there for want of its end. -/
  unterminated : Option Unterminated := none
  rest : Text

/-- The name of functions whose argument may be an unquoted url. -/
def isUrlName (name : Text) : Bool := Keywords.select [(['u', 'r', 'l'], true)] false name

/-- The marks `<!--` and `-->` that could hide a style sheet from old browsers. -/
def cdoMark : Text := ['<', '!', '-', '-']

def cdcMark : Text := ['-', '-', '>']

namespace Lexeme

def endOfInput : Lexeme := ⟨.endOfInput, [], none, false⟩

/-- A comment, from behind its opening mark. -/
def readComment (text : Text) : Scanned :=
  let inner := Comment.read text
  { lexeme := { kind := .comment, value := inner.content }
    unterminated := if inner.closed then none else some .comment
    rest := inner.rest }

/-- A string, from behind its opening quote. -/
def readString (quote : Char) (text : Text) : Scanned :=
  let inner := Quoted.read quote text
  { lexeme :=
      { kind := if inner.ending = .lineFeed then .badString else .string, value := inner.content }
    unterminated := if inner.ending = .endOfInput then some .string else none
    rest := inner.rest }

/-- The payload of a numeral. -/
def payload (n : Numeral) (unit : Option Text) : Numeric :=
  { value := n.value, isInteger := n.isInteger, hasSign := n.hasSign, unit := unit }

/-- A number, percentage or dimension, from behind its numeral. -/
def readNumeric (n : Numeral) (rest : Text) : Scanned :=
  if rest.head? = some '%' then
    { lexeme :=
        { kind := .percentage, value := n.text ++ ['%'], numeric := some (payload n none) }
      rest := rest.drop 1 }
  else if (Lookahead.ofText rest).startsIdentifier then
    let unit := Name.read rest
    { lexeme :=
        { kind := .dimension, value := n.text ++ unit.1, numeric := some (payload n unit.1) }
      rest := unit.2 }
  else { lexeme := { kind := .number, value := n.text, numeric := some (payload n none) }
         rest := rest }

/-- What follows the name `url` and its parenthesis. With a quote behind the blanks it is a
function like any other, and leaves them to be read again. -/
def readUrl (name text : Text) : Scanned :=
  let inside := text.dropWhile CodePoint.isWhitespace
  if inside.head? = some '"' ∨ inside.head? = some '\'' then
    { lexeme := { kind := .function, value := name }, rest := text }
  else
    let inner := Url.read inside
    { lexeme := { kind := if inner.good then .url else .badUrl, value := inner.content }
      rest := inner.rest }

/-- An identifier, a function or a url. -/
def readIdentLike (text : Text) : Scanned :=
  let name := Name.read text
  match name.2 with
  | '(' :: rest =>
      if isUrlName name.1 then readUrl name.1 rest
      else { lexeme := { kind := .function, value := name.1 }, rest := rest }
  | rest => { lexeme := { kind := .ident, value := name.1 }, rest := rest }

/-- A lexeme that starts with `c` and is decided by the code points after it. -/
def readMarked (c : Char) (rest : Text) : Scanned :=
  let delim : Scanned := { lexeme := { kind := .delim, value := [c] }, rest := rest }
  match c, rest with
  | '/', '*' :: inside => readComment inside
  | '<', '!' :: '-' :: '-' :: after =>
      { lexeme := { kind := .cdo, value := cdoMark }, rest := after }
  | '#', _ =>
      let next := Lookahead.ofText rest
      if next.continuesName then
        let name := Name.read rest
        { lexeme := { kind := .hash, value := name.1, isIdLike := next.startsIdentifier }
          rest := name.2 }
      else delim
  | '@', _ =>
      if (Lookahead.ofText rest).startsIdentifier then
        let name := Name.read rest
        { lexeme := { kind := .atKeyword, value := name.1 }, rest := name.2 }
      else delim
  | _, _ => delim

/-- Reads the lexeme at the front of a text. A numeral goes before a closing comment mark, and
that before an identifier, since all three may start with a hyphen. -/
def read (text : Text) : Scanned :=
  match text with
  | [] => { lexeme := endOfInput, rest := [] }
  | c :: rest =>
      if CodePoint.isWhitespace c then
        { lexeme := { kind := .whitespace, value := c :: rest.takeWhile CodePoint.isWhitespace }
          rest := rest.dropWhile CodePoint.isWhitespace }
      else if c = '"' ∨ c = '\'' then readString c rest
      else match Kind.ofSymbol? c with
        | some kind => { lexeme := { kind := kind, value := [c] }, rest := rest }
        | none =>
          match Numeral.read text with
          | some (n, after) => readNumeric n after
          | none =>
            if cdcMark.isPrefixOf text then
              { lexeme := { kind := .cdc, value := cdcMark }, rest := text.drop 3 }
            else if (Lookahead.ofText text).startsIdentifier then readIdentLike text
            else readMarked c rest

theorem length_readNumeric_le (n : Numeral) (rest : Text) :
    (readNumeric n rest).rest.length ≤ rest.length := by
  unfold readNumeric
  split
  · simp
  · split
    · exact Name.length_read_le rest
    · exact Nat.le_refl _

theorem length_readUrl_le (name text : Text) : (readUrl name text).rest.length ≤ text.length := by
  unfold readUrl
  simp only
  split
  · exact Nat.le_refl _
  · exact Nat.le_trans (Url.length_read_le _) (List.dropWhile_sublist _).length_le

theorem length_readIdentLike_le (text : Text) :
    (readIdentLike text).rest.length ≤ (Name.read text).2.length := by
  unfold readIdentLike
  simp only
  split
  · next rest h =>
      rw [h]
      split
      · exact Nat.le_succ_of_le (length_readUrl_le _ rest)
      · exact Nat.le_succ _
  · exact Nat.le_refl _

theorem length_readMarked_le (c : Char) (rest : Text) :
    (readMarked c rest).rest.length ≤ rest.length := by
  unfold readMarked
  simp only
  split
  · exact Nat.le_succ_of_le (Comment.length_read_le _)
  · simp only [List.length_cons]
    omega
  · split
    · exact Name.length_read_le rest
    · exact Nat.le_refl _
  · split
    · exact Name.length_read_le rest
    · exact Nat.le_refl _
  · exact Nat.le_refl _

/-- Every lexeme before the end of the input takes at least one code point. -/
theorem length_read_lt {text : Text} (h : text ≠ []) :
    (read text).rest.length < text.length := by
  cases text with
  | nil => exact absurd rfl h
  | cons c rest =>
      unfold read
      simp only
      split
      · exact Nat.lt_succ_of_le (List.dropWhile_sublist _).length_le
      · split
        · exact Nat.lt_succ_of_le (Quoted.length_read_le c rest)
        · split
          · exact Nat.lt_succ_self _
          · split
            · next n after hread =>
                exact Nat.lt_of_le_of_lt (length_readNumeric_le n after)
                  (Numeral.length_lt_of_read hread)
            · split
              · simp only [List.length_drop, List.length_cons]
                omega
              · split
                · next start =>
                    exact Nat.lt_of_le_of_lt (length_readIdentLike_le _)
                      (Name.length_read_lt (Lookahead.continuesName_of_startsIdentifier start))
                · exact Nat.lt_succ_of_le (length_readMarked_le c rest)

end Lexeme

end CssSyntax
