/-!
Binary64 numbers by their bits. The absolute value of a finite one is a whole number of units of
2⁻¹⁰⁷⁴, the least positive double, so rounding, division and truncation are exact arithmetic on
natural numbers.
-/

namespace CssSyntax

/-- A double: its sign bit, and below it the 63 bits of exponent and fraction read as one number,
which grows with the absolute value. -/
structure Double where
  negative : Bool
  magnitude : Nat
  magnitude_lt : magnitude < 0x8000000000000000
  deriving DecidableEq, Repr

namespace Double

def ofBits (bits : UInt64) : Double where
  negative := 0x8000000000000000 ≤ bits.toNat
  magnitude := bits.toNat % 0x8000000000000000
  magnitude_lt := Nat.mod_lt _ (by decide)

def toBits (x : Double) : UInt64 :=
  UInt64.ofNat ((if x.negative then 0x8000000000000000 else 0) + x.magnitude)

/-- The magnitude of infinity. Larger ones are not numbers. -/
def infinite : Nat := 0x7FF0000000000000

def isNaN (x : Double) : Bool := infinite < x.magnitude

def isFinite (x : Double) : Bool := x.magnitude < infinite

/-- How many units make one. -/
def unitsPerOne : Nat := 1 <<< 1074

/-- The magnitude from which on the fraction, which is the lowest 52 bits, has a one in front of
it that is not stored. -/
def leastNormal : Nat := 0x10000000000000

/-- The units in the absolute value that a magnitude stands for. Infinity counts as the power of
two that its exponent would give to a finite double. -/
def units (magnitude : Nat) : Nat :=
  if magnitude < leastNormal then magnitude
  else (magnitude % leastNormal + leastNormal) <<< (magnitude / leastNormal - 1)

/-- A quotient rounded to the nearest whole number, a half going to the even one. -/
def roundQuotient (num den : Nat) : Nat :=
  let below := num / den
  let twice := 2 * (num % den)
  if twice < den ∨ (twice = den ∧ below % 2 = 0) then below else below + 1

/-- The magnitude nearest to `num / den` units, ties going to the even one. The spacing of doubles
around the quotient is the largest power of two that leaves it 53 binary digits, and no less than
one unit; half a spacing beyond the largest double and further out it is infinity. -/
def nearest (num den : Nat) : Nat :=
  let spacing := (num / den).log2 - 52
  min (spacing * leastNormal + roundQuotient num (den <<< spacing)) infinite

theorem nearest_lt (num den : Nat) : nearest num den < 0x8000000000000000 :=
  Nat.lt_of_le_of_lt (Nat.min_le_right _ _) (by decide)

/-- The double nearest to `num / den` units with the sign that `negative` gives. -/
def ofUnits (negative : Bool) (num den : Nat) : Double :=
  ⟨negative, nearest num den, nearest_lt num den⟩

def zero (negative : Bool) : Double := ⟨negative, 0, by decide⟩

def infinity (negative : Bool) : Double := ⟨negative, infinite, by decide⟩

/-- The double nearest to `digits × 10 ^ exponent`. Numbers below 10⁻³²⁴ and from 10³⁰⁹ on round
to zero and to infinity whatever their digits are, so no large power is ever computed for
them. -/
def ofDecimal (negative : Bool) (digits : Nat) (exponent : Int) : Double :=
  let top := (Nat.toDigits 10 digits).length + exponent
  if digits = 0 ∨ top ≤ -324 then zero negative
  else if 309 < top then infinity negative
  else ofUnits negative (digits * Nat.pow 10 exponent.toNat * unitsPerOne)
    (Nat.pow 10 (-exponent).toNat)

/-- A double divided by a whole number. -/
def dividedBy (x : Double) (n : Nat) : Double :=
  if x.isFinite then ofUnits x.negative (units x.magnitude) n else x

def isWhole (x : Double) : Bool := x.isFinite && units x.magnitude % unitsPerOne == 0

/-- The whole number next to a double on the side of zero. -/
def truncate (x : Double) : Int :=
  let whole : Int := units x.magnitude / unitsPerOne
  if x.negative then -whole else whole

/-- The truncated double within the range of 32-bit integers; zero for what is no number. -/
def toInt32 (x : Double) : Int :=
  if x.isNaN then 0 else max (-0x80000000) (min x.truncate 0x7FFFFFFF)

@[simp] theorem ofBits_toBits (x : Double) : ofBits x.toBits = x := by
  obtain ⟨negative, magnitude, magnitude_lt⟩ := x
  have fits : (if negative then 0x8000000000000000 else 0) + magnitude < UInt64.size := by
    cases negative <;> simp [UInt64.size] <;> omega
  have back : (toBits ⟨negative, magnitude, magnitude_lt⟩).toNat =
      (if negative then 0x8000000000000000 else 0) + magnitude := by
    simp only [toBits]
    exact UInt64.toNat_ofNat_of_lt fits
  simp only [ofBits, back, mk.injEq]
  cases negative <;> simp <;> omega

theorem units_of_lt {magnitude : Nat} (h : magnitude < 2 * leastNormal) :
    units magnitude = magnitude := by
  unfold units
  unfold leastNormal at *
  split
  · rfl
  · have one : magnitude / 0x10000000000000 = 1 := by omega
    rw [one]
    show (magnitude % 0x10000000000000 + 0x10000000000000) = magnitude
    omega

end Double

end CssSyntax
