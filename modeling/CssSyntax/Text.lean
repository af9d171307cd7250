/-!
Text as the CSS syntax sees it: a list of code points, sorted into the few classes that its
rules speak about. Letters, digits and case are those of ASCII; every code point beyond ASCII
may stand in a name.
-/

namespace CssSyntax

/-- Decoded or normalized text, one entry a code point. -/
abbrev Text := List Char

/-- U+FFFD, which takes the place of whatever cannot stand in a text. -/
def replacement : Char := '\uFFFD'

namespace CodePoint

/-- The code point with a given number. Zero, surrogates and numbers past U+10FFFF stand for no
text, so they give the replacement character. -/
def ofNumber (n : Nat) : Char :=
  if n ≠ 0 ∧ n.isValidChar then Char.ofNat n else replacement

/-- Blanks of normalized text, in which every line ends with a line feed. -/
def isWhitespace (c : Char) : Bool := c == ' ' || c == '\t' || c == '\n'

def isNameStart (c : Char) : Bool := c.isAlpha || c == '_' || 128 ≤ c.toNat

def isName (c : Char) : Bool := isNameStart c || c.isDigit || c == '-'

/-- Controls that an unquoted url may not hold. Tab, line feed, form feed and carriage return
are not among them. -/
def isNonPrintable (c : Char) : Bool :=
  c.toNat ≤ 0x08 || c.toNat == 0x0B || (0x0E ≤ c.toNat && c.toNat ≤ 0x1F) || c.toNat == 0x7F

/-- The controls that serialization writes by number: U+0000 to U+001F and U+007F. -/
def isControl (c : Char) : Bool := c.toNat ≤ 0x1F || c.toNat == 0x7F

/-- The value of a hexadecimal digit of either case. -/
def hexValue? (c : Char) : Option Nat :=
  if c.isDigit then some (c.toNat - 48)
  else if 'a' ≤ c ∧ c ≤ 'f' then some (c.toNat - 87)
  else if 'A' ≤ c ∧ c ≤ 'F' then some (c.toNat - 55)
  else none

@[simp] theorem ofNumber_zero : ofNumber 0 = replacement := rfl

theorem ofNumber_toNat {c : Char} (h : c.toNat ≠ 0) : ofNumber c.toNat = c := by
  have valid : c.toNat.isValidChar := c.valid
  simp [ofNumber, h, valid, Char.ofNat_toNat]

theorem toNat_ofNumber {n : Nat} (h : n ≠ 0) (valid : n.isValidChar) :
    (ofNumber n).toNat = n := by
  rw [ofNumber, if_pos ⟨h, valid⟩, Char.ofNat, dif_pos valid]
  rfl

theorem ofNumber_ne_nul (n : Nat) : ofNumber n ≠ '\x00' := by
  by_cases h : n ≠ 0 ∧ n.isValidChar
  · intro nul
    have := toNat_ofNumber h.1 h.2
    rw [nul] at this
    exact h.1 this.symm
  · rw [ofNumber, if_neg h]
    decide

end CodePoint

end CssSyntax
