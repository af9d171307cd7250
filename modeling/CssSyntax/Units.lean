import CssSyntax.Text

/-!
Units of input and the normalized text they make up, as a whole. A unit is a code unit of UTF-16
or the number of a code point. Surrogates are paired first, and line ends are folded after that.
-/

namespace CssSyntax.Units

def isHigh (unit : UInt32) : Bool := 0xD800 ≤ unit && unit ≤ 0xDBFF

def isLow (unit : UInt32) : Bool := 0xDC00 ≤ unit && unit ≤ 0xDFFF

/-- The code point of a pair of surrogates. -/
def pair (high low : UInt32) : Char :=
  CodePoint.ofNumber (0x10000 + (high.toNat - 0xD800) * 0x400 + (low.toNat - 0xDC00))

/-- Pairs each high surrogate with a low one right after it; every unit that is then no code point
of a text gives the replacement character. -/
def decode : List UInt32 → Text
  | [] => []
  | [unit] => [CodePoint.ofNumber unit.toNat]
  | unit :: next :: rest =>
      if isHigh unit && isLow next then pair unit next :: decode rest
      else CodePoint.ofNumber unit.toNat :: decode (next :: rest)

/-- Turns every line end, be it CR LF, CR, FF or LF, into a line feed. -/
def foldLines : Text → Text
  | '\r' :: '\n' :: rest => '\n' :: foldLines rest
  | '\r' :: rest => '\n' :: foldLines rest
  | '\x0C' :: rest => '\n' :: foldLines rest
  | c :: rest => c :: foldLines rest
  | [] => []

/-- The normalized text of a list of units. -/
def normalize (units : List UInt32) : Text := foldLines (decode units)

def ofText (text : Text) : List UInt32 := text.map Char.val

@[simp] theorem ofText_nil : ofText [] = [] := rfl

@[simp] theorem ofText_cons (c : Char) (rest : Text) : ofText (c :: rest) = c.val :: ofText rest :=
  rfl

end CssSyntax.Units
