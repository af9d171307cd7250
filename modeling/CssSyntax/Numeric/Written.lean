import CssSyntax.Double.Shortest
import CssSyntax.Name
import CssSyntax.Numeral
import CssSyntax.Numeric

/-!
The text of numbers. Integers are written in full, other numbers by their shortest decimal, cut
to fifteen digits, and never so that they would read back as integers.
-/

namespace CssSyntax

/-- How decimals are written: the digits kept, and the range of points that are written in place
rather than as an exponent. -/
structure DecimalFormat where
  precision : Nat
  leastPoint : Int
  greatestPoint : Int

/-- Decimals have at most fifteen digits. Five zeros after the point and twenty-one digits before
it are written out; beyond that there is an exponent. -/
def DecimalFormat.css : DecimalFormat := ⟨15, -5, 21⟩

/-- Digits cut to `precision`, with half rounded up on the first digit cut off alone, and whether
that carried out of the top. -/
def roundDigits (precision : Nat) (digits : Text) : Text × Bool :=
  match digits.drop precision with
  | [] => (digits, false)
  | next :: _ =>
      let kept := digitsValue (digits.take precision) + (if '5' ≤ next then 1 else 0)
      let written := Nat.toDigits 10 kept
      (Double.dropTrailingZeros written, precision < written.length)

namespace Decimal

/-- The number `0.digits × 10 ^ point` with its point in place. -/
def positional (digits : Text) (point : Int) : Text :=
  if point ≤ 0 then '0' :: '.' :: List.replicate (-point).toNat '0' ++ digits
  else if digits.length ≤ point.toNat then
    digits ++ List.replicate (point.toNat - digits.length) '0'
  else digits.take point.toNat ++ '.' :: digits.drop point.toNat

end Decimal

/-- A whole number with a minus if it is negative. -/
def intText (n : Int) : Text :=
  (if n < 0 then ['-'] else []) ++ Nat.toDigits 10 n.natAbs

namespace Decimal

/-- One digit before the point, the others after it, and an exponent. -/
def scientific (mantissa : Text) (exponent : Int) : Text :=
  mantissa.take 1 ++ (if mantissa.length ≤ 1 then [] else '.' :: mantissa.drop 1) ++
    'e' :: intText exponent

/-- The text of a decimal. The notation is chosen before rounding, so a carry makes one digit more
before the point, and ten before an exponent. -/
def write (format : DecimalFormat) (d : Decimal) : Text :=
  let (digits, carried) := roundDigits format.precision d.digits
  if format.leastPoint ≤ d.point ∧ d.point ≤ format.greatestPoint then
    positional digits (if carried then d.point + 1 else d.point)
  else if carried then '1' :: '0' :: 'e' :: intText (d.point - 1)
  else scientific digits (d.point - 1)

end Decimal

/-- The decimal text of a double. A minus goes in front of negative numbers and of negative zero,
and what is no number gets none. -/
def Double.decimalText (x : Double) : Text :=
  (if x.negative && !x.isNaN then ['-'] else []) ++
    (if x.magnitude = 0 then ['0'] else (shortest x.magnitude).write .css)

namespace Numeric

/-- The number without its unit, in pieces. A plus that was written is kept; an integer keeps the
sign of zero; a whole number that is no integer gets a fraction. -/
def numberPieces (n : Numeric) : List Text :=
  let plus : List Text := if n.hasSign && !n.value.negative then [['+']] else []
  match n.intValue? with
  | some i => plus ++ (if n.value.negative && i == 0 then [['-']] else []) ++ [intText i]
  | none =>
      let text := n.value.decimalText
      let fraction : List Text :=
        if n.value.isWhole && !text.contains '.' && !text.contains 'e' then [['.', '0']] else []
      plus ++ text :: fraction

/-- Whether a unit written as it is could be read as the exponent of the number before it. -/
def readsAsExponent : Text → Bool
  | [c] => c == 'e' || c == 'E'
  | c :: next :: _ => (c == 'e' || c == 'E') && (next == '-' || next.isDigit)
  | [] => false

/-- The unit of a dimension in pieces, with its first letter escaped by number if it could be read
as an exponent. -/
def unitPieces (unit : Text) : List Text :=
  if readsAsExponent unit then ['\\', '6', '5', ' '] :: Name.pieces (unit.drop 1)
  else Identifier.pieces unit

end Numeric

end CssSyntax
