import CssSyntax.Destination
import CssSyntax.Serialize

/-!
Writing the CSS text of tokens to a destination, which may refuse any of the many small pieces that
the text is written in. The first refusal ends the writing of the token.
-/

namespace CssSyntax

variable {σ : Type}

namespace Escape

/-- Writes an escape by number: the backslash, the digits, and the blank that ends them. -/
def putNumber (dest : Destination σ) (c : Char) : Writing σ Unit := do
  dest.put ['\\']
  dest.put (Nat.toDigits 16 c.toNat)
  dest.put [' ']

/-- Writes an escape that repeats a code point. -/
def putItself (dest : Destination σ) (c : Char) : Writing σ Unit := do
  dest.put ['\\']
  dest.put [c]

/-- A stretch of a text that is written as it is, between two places counted in bytes, and what is
written behind it. -/
structure Stretch (σ : Type) where
  start : Nat
  stop : Nat
  behind : Writing σ Unit

/-- Writes a stretch of `text`, and what belongs behind it. -/
def Stretch.write (dest : Destination σ) (text : Text) (stretch : Stretch σ) : Writing σ Unit := do
  dest.put (text.slice stretch.start stretch.stop)
  stretch.behind

/-- Cuts a text into stretches, going over its bytes. A byte that has an escape ends the stretch,
and the next one begins behind it. The stretch so far begins at `start`, and `place` is that of the
next byte. -/
def stretches (escape? : Char → Option (Writing σ Unit)) (start place : Nat) :
    List UInt8 → List (Stretch σ)
  | [] => [⟨start, place, pure ()⟩]
  | b :: bytes =>
      match escape? (.ofUInt8 b) with
      | none => stretches escape? start (place + 1) bytes
      | some escape => ⟨start, place, escape⟩ :: stretches escape? (place + 1) (place + 1) bytes

/-- Writes a text with its escapes. What stands between two of them is put in one piece. -/
def write (dest : Destination σ) (escape? : Char → Option (Writing σ Unit)) (text : Text) :
    Writing σ Unit :=
  (stretches escape? 0 0 text.utf8).forM (Stretch.write dest text)

end Escape

namespace Name

def escape? (dest : Destination σ) (c : Char) : Option (Writing σ Unit) :=
  if CodePoint.isName c then none
  else if CodePoint.isControl c then some (Escape.putNumber dest c)
  else some (Escape.putItself dest c)

def write (dest : Destination σ) (name : Text) : Writing σ Unit :=
  Escape.write dest (escape? dest) name

end Name

namespace Identifier

/-- Writes an identifier from behind its leading hyphen, if it has one. -/
def writeTail (dest : Destination σ) : Text → Writing σ Unit
  | [] => pure ()
  | c :: rest =>
      if c.isDigit then do
        Escape.putNumber dest c
        Name.write dest rest
      else Name.write dest (c :: rest)

def write (dest : Destination σ) : Text → Writing σ Unit
  | ['-'] => dest.put ['\\', '-']
  | '-' :: '-' :: rest => do
      dest.put ['-', '-']
      Name.write dest rest
  | '-' :: rest => do
      dest.put ['-']
      writeTail dest rest
  | name => writeTail dest name

end Identifier

namespace Url

def escape? (dest : Destination σ) (c : Char) : Option (Writing σ Unit) :=
  if CodePoint.isControl c || c == ' ' then some (Escape.putNumber dest c)
  else if c == '(' || c == ')' || c == '"' || c == '\'' || c == '\\' then
    some (Escape.putItself dest c)
  else none

/-- Writes the url between its parentheses. -/
def writeContent (dest : Destination σ) (content : Text) : Writing σ Unit :=
  Escape.write dest (escape? dest) content

end Url

namespace Quoted

def escape? (dest : Destination σ) (c : Char) : Option (Writing σ Unit) :=
  if c = '"' ∨ c = '\\' then some (dest.put ['\\', c])
  else if c = '\x00' then some (dest.put [replacement])
  else if CodePoint.isControl c then some (Escape.putNumber dest c)
  else none

/-- The inside of a string as a destination: what is put there arrives with its escapes. -/
def inside (dest : Destination σ) : Destination σ := ⟨Escape.write dest (escape? dest)⟩

/-- Writes a string with its quotes. -/
def write (dest : Destination σ) (content : Text) : Writing σ Unit := do
  dest.put ['"']
  (inside dest).put content
  dest.put ['"']

end Quoted

namespace Numeric

/-- Writes the number without its unit. -/
def writeNumber (dest : Destination σ) (n : Numeric) : Writing σ Unit := do
  if n.hasSign && !n.value.negative then
    dest.put ['+']
  match n.intValue? with
  | some i =>
      if n.value.negative && i == 0 then
        dest.put ['-']
      dest.put (intText i)
  | none =>
      let text := n.value.decimalText
      dest.put text
      if n.value.isWhole && !text.contains '.' && !text.contains 'e' then
        dest.put ['.', '0']

def writeUnit (dest : Destination σ) (unit : Text) : Writing σ Unit :=
  if readsAsExponent unit then do
    dest.put ['\\', '6', '5', ' ']
    Name.write dest (unit.drop 1)
  else Identifier.write dest unit

/-- Writes a numeric token. Only a dimension shows its unit. -/
def write (dest : Destination σ) (kind : Kind) (n : Numeric) : Writing σ Unit := do
  n.writeNumber dest
  match kind, n.unit with
  | .percentage, _ => dest.put ['%']
  | .dimension, some unit => writeUnit dest unit
  | _, _ => pure ()

end Numeric

/-- Writes a token. -/
def Lexeme.write (dest : Destination σ) (lexeme : Lexeme) : Writing σ Unit := do
  match lexeme.kind with
  | .ident => Identifier.write dest lexeme.value
  | .function =>
      Identifier.write dest lexeme.value
      dest.put ['(']
  | .atKeyword =>
      dest.put ['@']
      Identifier.write dest lexeme.value
  | .hash =>
      dest.put ['#']
      if lexeme.isIdLike then Identifier.write dest lexeme.value
      else Name.write dest lexeme.value
  | .string => Quoted.write dest lexeme.value
  | .badString =>
      dest.put ['"']
      (Quoted.inside dest).put lexeme.value
  | .url =>
      dest.put ['u', 'r', 'l', '(']
      Url.writeContent dest lexeme.value
      dest.put [')']
  | .badUrl =>
      dest.put ['u', 'r', 'l', '(']
      dest.put lexeme.value
      dest.put [')']
  | .comment =>
      dest.put ['/', '*']
      dest.put lexeme.value
      dest.put ['*', '/']
  | .number | .percentage | .dimension =>
      match lexeme.numeric with
      | some numeric => numeric.write dest lexeme.kind
      | none => dest.put lexeme.value
  | .endOfInput => pure ()
  | _ => dest.put lexeme.value

/-- How a delivery went: all of it was taken, or the destination ran full. Either way `kept` is
what is there now. -/
inductive Delivery where
  | complete (kept : Text)
  | full (kept : Text)
  deriving DecidableEq, Repr

/-- How it goes when something is written to an empty text. -/
def deliver (writing : Writing Text Unit) : Delivery :=
  match writing [] with
  | .ok _ kept => .complete kept
  | .error _ kept => .full kept

end CssSyntax
