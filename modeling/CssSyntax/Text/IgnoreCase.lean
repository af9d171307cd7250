import CssSyntax.Text.Utf8

/-!
Comparison that ignores the case of ASCII letters. A text is lowered only if it fits a given
number of bytes: a table of keywords never needs more than its longest keyword, and whatever
is longer cannot be one of them.
-/

namespace CssSyntax

namespace Text

/-- A text with A to Z lowered and every other code point kept. -/
def lower (text : Text) : Text := text.map Char.toLower

@[simp] theorem lower_nil : lower [] = [] := rfl

@[simp] theorem lower_cons (c : Char) (rest : Text) :
    lower (c :: rest) = c.toLower :: lower rest := rfl

/-- The letters A to Z, as bytes. -/
def isUpperByte (b : UInt8) : Bool := 65 ≤ b && b ≤ 90

def lowerByte (b : UInt8) : UInt8 := if isUpperByte b then b + 32 else b

/-- The lowered text, if it fits a buffer. What stands in the buffer before is written over. A text
without capitals is given back as it is. Otherwise the copy in the buffer is lowered from its first
capital on, byte by byte. -/
def lowerIn (buffer : List UInt8) (text : Text) : Option Text :=
  let bytes := utf8 text
  if bytes.length ≤ buffer.length then
    match bytes.findIdx? isUpperByte with
    | none => some text
    | some first =>
        let copy := List.zipWith (fun _ b => b) (buffer.take bytes.length) bytes
        ofUtf8? (copy.take first ++ (copy.drop first).map lowerByte)
  else none

/-- The lowered text, if it fits a fresh buffer of `capacity` bytes. -/
def lowerWithin (capacity : Nat) (text : Text) : Option Text :=
  lowerIn (List.replicate capacity 0) text

end Text

/-- Lower-case keywords, each with what it stands for. -/
abbrev Keywords (α : Type) := List (Text × α)

namespace Keywords

variable {α : Type}

/-- The bytes of the longest keyword. -/
def capacity (keywords : Keywords α) : Nat :=
  (keywords.map fun entry => Text.byteLength entry.1).foldl max 0

/-- Looks a word up as it is written. -/
def lookup? (keywords : Keywords α) (word : Text) : Option α :=
  (keywords.find? fun entry => entry.1 == word).map Prod.snd

/-- Looks a word up whatever its case. -/
def find? (keywords : Keywords α) (word : Text) : Option α :=
  (Text.lowerWithin keywords.capacity word).bind keywords.lookup?

/-- What the first keyword that equals the word stands for, or `otherwise`. A word too long for
every keyword is compared as a lone capital, which no keyword is. -/
def select (keywords : Keywords α) (otherwise : α) (word : Text) : α :=
  (keywords.lookup? ((Text.lowerWithin keywords.capacity word).getD ['A'])).getD otherwise

end Keywords

end CssSyntax
