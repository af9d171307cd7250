import CssSyntax.Text
import CssSyntax.Double

/-!
The payload of number, percentage and dimension tokens.
-/

namespace CssSyntax

/-- A number as a token carries it. A percentage is not divided by a hundred, and the unit of a
dimension has its escapes resolved. -/
structure Numeric where
  value : Double
  /-- Whether it was written without a fraction and without an exponent. -/
  isInteger : Bool
  /-- Whether it was written with a sign. -/
  hasSign : Bool
  unit : Option Text
  deriving DecidableEq, Repr

namespace Numeric

/-- The value of an integer, within the range of 32-bit integers. -/
def intValue? (n : Numeric) : Option Int := if n.isInteger then some n.value.toInt32 else none

/-- The value divided by a hundred, so that a hundred percent is one. -/
def unitValue (n : Numeric) : Double := n.value.dividedBy 100

end Numeric

end CssSyntax
