import CssSyntax.Text
import CssSyntax.Double

/-!
Numerals: an optional sign, digits with an optional fraction, and an optional exponent. Reading
takes the longest numeral at the start of a text; its value is the nearest double.
-/

namespace CssSyntax

/-- The exponent of a numeral: its mark, sign and digits. -/
structure Exponent where
  mark : Char
  sign : Option Char
  digits : Text
  deriving DecidableEq, Repr

/-- The parts of a numeral. The digits before the point or those behind it may be missing, but not
both; without digits behind it there is no point. -/
structure Numeral where
  sign : Option Char
  whole : Text
  fraction : Text
  exponent : Option Exponent
  deriving DecidableEq, Repr

/-- The number that decimal digits write. -/
def digitsValue (digits : Text) : Nat := Nat.ofDigitChars 10 digits 0

/-- Takes a plus or minus sign off the front of a text. -/
def splitSign : Text → Option Char × Text
  | [] => (none, [])
  | c :: rest => if c = '+' ∨ c = '-' then (some c, rest) else (none, c :: rest)

theorem length_splitSign_le (text : Text) : (splitSign text).2.length ≤ text.length := by
  cases text with
  | nil => exact Nat.le_refl _
  | cons c rest =>
      simp only [splitSign]
      split <;> simp

theorem length_digits_add (text : Text) :
    (text.takeWhile Char.isDigit).length + (text.dropWhile Char.isDigit).length = text.length := by
  rw [← List.length_append, List.takeWhile_append_dropWhile]

namespace Exponent

/-- Reads an exponent, if one with at least one digit starts the text. -/
def read : Text → Option (Exponent × Text)
  | [] => none
  | mark :: rest =>
      let signed := splitSign rest
      let digits := signed.2.takeWhile Char.isDigit
      if (mark = 'e' ∨ mark = 'E') ∧ digits ≠ [] then
        some (⟨mark, signed.1, digits⟩, signed.2.dropWhile Char.isDigit)
      else none

theorem length_le_of_read {text rest : Text} {e : Exponent} (h : read text = some (e, rest)) :
    rest.length ≤ text.length := by
  cases text with
  | nil => cases h
  | cons mark tail =>
      simp only [read] at h
      split at h
      · cases h
        have := length_splitSign_le tail
        have := length_digits_add (splitSign tail).2
        simp only [List.length_cons]
        omega
      · cases h

def text (e : Exponent) : Text := e.mark :: e.sign.toList ++ e.digits

def value (e : Exponent) : Int :=
  if e.sign = some '-' then -(digitsValue e.digits) else digitsValue e.digits

end Exponent

namespace Numeral

/-- Reads the digits behind a point, if there are any. -/
def readFraction : Text → Text × Text
  | [] => ([], [])
  | c :: rest =>
      let digits := rest.takeWhile Char.isDigit
      if c = '.' ∧ digits ≠ [] then (digits, rest.dropWhile Char.isDigit) else ([], c :: rest)

/-- Reads the longest numeral at the start of a text. -/
def read (text : Text) : Option (Numeral × Text) :=
  let signed := splitSign text
  let whole := signed.2.takeWhile Char.isDigit
  let fraction := readFraction (signed.2.dropWhile Char.isDigit)
  if whole = [] ∧ fraction.1 = [] then none
  else match Exponent.read fraction.2 with
    | none => some (⟨signed.1, whole, fraction.1, none⟩, fraction.2)
    | some (exponent, rest) => some (⟨signed.1, whole, fraction.1, some exponent⟩, rest)

theorem length_readFraction (text : Text) :
    (readFraction text).1.length + (readFraction text).2.length ≤ text.length := by
  cases text with
  | nil => exact Nat.le_refl _
  | cons c rest =>
      have := length_digits_add rest
      simp only [readFraction]
      split
      · simp only [List.length_cons]
        omega
      · simp

/-- A numeral has at least one digit, so the text behind it is shorter. -/
theorem length_lt_of_read {text rest : Text} {n : Numeral} (h : read text = some (n, rest)) :
    rest.length < text.length := by
  have hsign := length_splitSign_le text
  have hwhole := length_digits_add (splitSign text).2
  have hfraction := length_readFraction ((splitSign text).2.dropWhile Char.isDigit)
  simp only [read] at h
  split at h
  · cases h
  · next digits =>
      have hdigits : 0 < ((splitSign text).2.takeWhile Char.isDigit).length +
          (readFraction ((splitSign text).2.dropWhile Char.isDigit)).1.length := by
        rw [← List.length_append, List.length_pos_iff]
        simpa using digits
      split at h
      · cases h
        omega
      · next exponent after hexponent =>
          have := Exponent.length_le_of_read hexponent
          cases h
          omega

/-- The numeral as it is spelled. -/
def text (n : Numeral) : Text :=
  n.sign.toList ++ n.whole ++ (if n.fraction = [] then [] else '.' :: n.fraction) ++
    (n.exponent.map Exponent.text).getD []

def isInteger (n : Numeral) : Bool := n.fraction == [] && n.exponent.isNone

def hasSign (n : Numeral) : Bool := n.sign.isSome

/-- The double nearest to the number that the numeral writes. A minus sign shows on zero too. -/
def value (n : Numeral) : Double :=
  Double.ofDecimal (n.sign == some '-') (digitsValue (n.whole ++ n.fraction))
    ((n.exponent.map Exponent.value).getD 0 - n.fraction.length)

/-- A literal with a zero put before a point that no digit precedes. -/
def canonical : Text → Text
  | '.' :: rest => '0' :: '.' :: rest
  | '+' :: '.' :: rest => '+' :: '0' :: '.' :: rest
  | '-' :: '.' :: rest => '-' :: '0' :: '.' :: rest
  | literal => literal

/-- The value of a literal that is one numeral as a whole and has a digit before the point. -/
def valueOf? (literal : Text) : Option Double :=
  match read literal with
  | some (n, []) => if n.whole = [] then none else some n.value
  | _ => none

end Numeral

end CssSyntax
