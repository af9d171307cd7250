import CssSyntax.Text
import CssSyntax.Double

/-!
The shortest decimal that reads back as a given double. A decimal reads back if it lies strictly
between the midpoints to the two neighbouring doubles; a midpoint is written for neither of them,
so what is written reads back whichever way halves are rounded. The grids of one, two and up to
seventeen digits are tried in turn; on each only the two decimals around the double can be the
nearest that reads back.
-/

namespace CssSyntax

/-- The number `0.d₁d₂… × 10 ^ point`. -/
structure Decimal where
  digits : Text
  point : Int
  deriving DecidableEq, Repr

namespace Double

/-- No double needs a power of ten further than this from one, in either direction, for its
seventeen digits. All decimals below are counted in `10 ^ -reach` of half a unit. -/
def reach : Nat := 340

/-- The number of digits before the point, or minus the number of zeros behind it. -/
def decimalPoint (magnitude : Nat) : Int :=
  (Nat.toDigits 10 (units magnitude * Nat.pow 10 reach / unitsPerOne)).length - (reach : Int)

/-- Whether a decimal, counted as said above, reads back as the double of a magnitude. -/
def readsBack (magnitude decimal : Nat) : Bool :=
  let low := (units (magnitude - 1) + units magnitude) * Nat.pow 10 reach
  let high := (units magnitude + units (magnitude + 1)) * Nat.pow 10 reach
  low < decimal && decimal < high

/-- The count of digits of the last place of a grid in the nearest decimal on it that reads
back. -/
def onGrid? (magnitude : Nat) (place : Int) : Option Nat :=
  let step := Nat.pow 10 (place + reach).toNat * (2 * unitsPerOne)
  let value := 2 * units magnitude * Nat.pow 10 reach
  let nearer := roundQuotient value step
  let further := if nearer = value / step then nearer + 1 else nearer - 1
  [nearer, further].find? fun count => readsBack magnitude (count * step)

def dropTrailingZeros (digits : Text) : Text := (digits.reverse.dropWhile (· == '0')).reverse

end Double

/-- The decimal of a whole number of places, without the zeros at its end. -/
def Decimal.ofCount (count : Nat) (place : Int) : Decimal :=
  let digits := Nat.toDigits 10 count
  ⟨Double.dropTrailingZeros digits, place + digits.length⟩

/-- The shortest decimal that reads back as the double of a positive magnitude, and of those of
its length the nearest. -/
def Double.shortest (magnitude : Nat) : Decimal :=
  let point := decimalPoint magnitude
  let found := (List.range 17).findSome? fun (i : Nat) =>
    (onGrid? magnitude (point - (i + 1))).map fun count => Decimal.ofCount count (point - (i + 1))
  found.getD ⟨[], 0⟩

end CssSyntax
