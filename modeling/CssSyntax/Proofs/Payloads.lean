import CssSyntax.Proofs.Decimals

/-!
The text of numbers without their units. It is a numeral with the sign of the number, which writes
an integer as it is, and for other numbers the shortest decimal rounded to fifteen digits. That
numeral has a fraction or an exponent, unless the number was not whole and only its rounding is.
-/

namespace CssSyntax

namespace Numeral

/-- A numeral without its sign is still recognized as an integer by its text. -/
theorem isInteger_iff_of_mark {n : Numeral} (mark : ∀ e ∈ n.exponent, e.mark = 'e')
    (wf : n.WellFormed) : n.isInteger ↔ '.' ∉ n.text ∧ 'e' ∉ n.text := by
  constructor
  · intro integer
    obtain ⟨noPoint, noMark, -⟩ := (isInteger_iff wf).mp integer
    exact ⟨noPoint, noMark⟩
  · rintro ⟨noPoint, noMark⟩
    obtain ⟨sign, whole, fraction, exponent⟩ := n
    have noFraction : fraction = [] := by
      by_contra point
      exact noPoint (by simp [text, point])
    cases exponent with
    | none => simp [isInteger, noFraction]
    | some e => exact absurd (by simp [text, Exponent.text, mark e rfl]) noMark

/-- A numeral of the same digits with a sign. -/
theorem Spells.signed {n : Numeral} {text : Text} {number : ℚ} (h : n.Spells text number)
    {sign : Option Char} (isSign : IsSign sign) :
    let m : Numeral := { n with sign := sign }
    m.WellFormed ∧ m.text = sign.toList ++ text ∧
      m.rational = Double.sign (sign == some '-') * number ∧ m.isInteger = n.isInteger := by
  obtain ⟨wf, unsigned, -, spelled, written⟩ := h
  obtain ⟨_, whole, fraction, exponent⟩ := n
  cases unsigned
  refine ⟨⟨isSign, wf.whole, wf.fraction, wf.some_digit, wf.exponent⟩, ?_, ?_, rfl⟩
  · rw [← spelled]
    simp [Numeral.text]
  · rw [← written, Numeral.rational, Numeral.rational]
    simp [Double.sign]

/-- An integer gets a fraction. -/
theorem Spells.pointed {n : Numeral} {text : Text} {number : ℚ} (h : n.Spells text number)
    (integer : n.isInteger) :
    ∃ m : Numeral, m.Spells (text ++ ['.', '0']) number ∧ m.isInteger = false := by
  obtain ⟨wf, unsigned, -, spelled, written⟩ := h
  obtain ⟨sign, whole, fraction, exponent⟩ := n
  obtain ⟨rfl, rfl⟩ : fraction = [] ∧ exponent = none := by simpa [isInteger] using integer
  cases unsigned
  refine ⟨⟨none, whole, ['0'], none⟩, ⟨⟨wf.sign, wf.whole, by simp, .inr (by simp), by simp⟩, rfl,
    by simp, ?_, ?_⟩, by simp [isInteger]⟩
  · rw [← spelled]
    simp [Numeral.text]
  · have zero : digitsValue ['0'] = digitsValue [] := by decide
    rw [← written, Numeral.rational, Numeral.rational, zero]
    simp [digitsValue]

end Numeral

namespace Double

/-- The number that is written for the absolute value of a double that is no integer. -/
def written (x : Double) : ℚ :=
  if x.magnitude = 0 then 0 else ((shortest x.magnitude).round 15).rational

/-- The units of a double that is a whole number. -/
theorem units_of_rational {x : Double} {whole : ℤ} (same : x.rational = whole) :
    units x.magnitude = unitsPerOne * whole.natAbs := by
  have one := cast_unitsPerOne_pos.ne'
  have size := units_div_nonneg x.magnitude
  have absolute := congrArg (|·|) same
  rw [rational] at absolute
  generalize unitsPerOne = scale at *
  rw [abs_sign_mul, abs_of_nonneg size, ← Int.cast_abs, Int.abs_eq_natAbs,
    Int.cast_natCast] at absolute
  have : (units x.magnitude : ℚ) = scale * whole.natAbs := by rw [← absolute, mul_div_cancel₀ _ one]
  exact_mod_cast this

theorem exists_rational_eq {x : Double} (whole : unitsPerOne ∣ units x.magnitude) :
    ∃ whole : ℤ, x.rational = whole := by
  have one := cast_unitsPerOne_pos.ne'
  obtain ⟨count, units_eq⟩ := whole
  refine ⟨if x.negative then -count else count, ?_⟩
  rw [rational, units_eq]
  push_cast
  rw [mul_div_cancel_left₀ _ one, sign]
  split <;> simp

/-- A double is whole exactly if it is finite and a whole number. -/
theorem isWhole_iff (x : Double) :
    x.isWhole ↔ x.isFinite ∧ ∃ whole : ℤ, x.rational = whole := by
  simp only [isWhole, Bool.and_eq_true, beq_iff_eq]
  refine and_congr_right fun _ => ⟨fun divides => ?_, ?_⟩
  · exact exists_rational_eq (Nat.dvd_of_mod_eq_zero divides)
  · rintro ⟨whole, same⟩
    rw [units_of_rational same]
    exact Nat.mul_mod_right _ _

/-- The double of a power of two, 2⁵² or more. -/
theorem units_pow (more : Nat) :
    units ((more + 1074) * leastNormal + leastNormal) = 2 ^ (52 + more) * unitsPerOne := by
  have split (k : Nat) : 2 ^ (more + k) = 2 ^ more * 2 ^ k := Nat.pow_add 2 more k
  rw [units_scaled (.inr (Nat.le_refl _)) (by omega), split, ← unitsPerOne_eq, leastNormal_eq,
    ← Nat.mul_assoc, ← Nat.pow_add]

/-- From 2⁵² on doubles are whole. -/
theorem lt_of_not_isWhole {x : Double} (finite : x.isFinite) (part : ¬x.isWhole) :
    x.magnitude < 1075 * leastNormal := by
  by_contra large
  have whole : unitsPerOne ∣ units x.magnitude := by
    rw [unitsPerOne_eq]
    exact @pow_dvd_units x.magnitude 1074 (Nat.not_lt.mp large)
  exact part (by rw [isWhole, finite, Nat.mod_eq_zero_of_dvd whole]; rfl)

theorem magnitude_pos_of_not_isWhole {x : Double} (finite : x.isFinite) (part : ¬x.isWhole) :
    0 < x.magnitude := by
  refine Nat.pos_of_ne_zero fun zero => part ?_
  rw [isWhole, finite, zero, units_zero, Nat.zero_mod]
  rfl

/-- What is not whole is written with its point in place. -/
theorem point_shortest_le {x : Double} (finite : x.isFinite) (part : ¬x.isWhole) :
    (shortest x.magnitude).point ≤ 21 := by
  have positive := magnitude_pos_of_not_isWhole finite part
  have small := lt_of_not_isWhole finite part
  have one := cast_unitsPerOne_pos
  have above : (units (x.magnitude + 1) : ℚ) ≤ 2 ^ 52 * unitsPerOne := by
    have within : x.magnitude + 1 ≤ (0 + 1074) * leastNormal + leastNormal := by omega
    have least := units_strictMono.monotone within
    rw [units_pow] at least
    exact_mod_cast least
  obtain ⟨before, hbefore⟩ := Nat.exists_eq_add_one.mpr positive
  have between := (shortest_between before).2
  have low := (reduced_shortest positive).bounds.1
  rw [hbefore] at above low ⊢
  have rising : (units (before + 1) : ℚ) ≤ units (before + 2) := cast_units_le (Nat.le_succ _)
  by_contra large
  have many : (10 : ℚ) ^ (21 : ℤ) ≤ 10 ^ ((shortest (before + 1)).point - 1) :=
    zpow_le_zpow_right₀ (by norm_num) (by omega)
  have less : (shortest (before + 1)).rational * unitsPerOne < 10 ^ (21 : ℤ) * unitsPerOne := by
    have : (2 : ℚ) ^ 52 * unitsPerOne < 10 ^ (21 : ℤ) * unitsPerOne :=
      mul_lt_mul_of_pos_right (by norm_num) one
    linarith
  exact absurd (lt_of_mul_lt_mul_right less one.le) (not_lt.mpr (many.trans low))

/-- What is not finite is written with an exponent. -/
theorem lt_point_shortest {magnitude : Nat} (large : infinite ≤ magnitude) :
    21 < (shortest magnitude).point := by
  have positive : 0 < magnitude := Nat.lt_of_lt_of_le (by decide) large
  have one := cast_unitsPerOne_pos
  obtain ⟨before, rfl⟩ := Nat.exists_eq_add_one.mpr positive
  have below : (2 : ℚ) ^ 82 * unitsPerOne ≤ units before := by
    have first : (30 + 1074) * leastNormal + leastNormal + 1 ≤ infinite := by decide
    have within := Nat.le_of_succ_le_succ (first.trans large)
    have least := units_strictMono.monotone within
    rw [units_pow] at least
    exact_mod_cast least
  have rising := cast_units_le (Nat.le_add_right before 1)
  have between := (shortest_between before).1
  have high := (reduced_shortest positive).bounds.2
  by_contra small
  have few : (10 : ℚ) ^ (shortest (before + 1)).point ≤ 10 ^ (21 : ℤ) :=
    zpow_le_zpow_right₀ (by norm_num) (by omega)
  have more : (10 : ℚ) ^ (21 : ℤ) * unitsPerOne <
      (shortest (before + 1)).rational * unitsPerOne := by
    have : (10 : ℚ) ^ (21 : ℤ) * unitsPerOne < 2 ^ 82 * unitsPerOne :=
      mul_lt_mul_of_pos_right (by norm_num) one
    linarith
  exact absurd (lt_of_mul_lt_mul_right more one.le) (not_lt.mpr (high.le.trans few))

/-- The text of the absolute value is a numeral, and unless the double is whole it is an integer
only where a finite one is rounded to a whole number. -/
theorem exists_spells (x : Double) :
    ∃ n : Numeral,
      n.Spells (if x.magnitude = 0 then ['0'] else (shortest x.magnitude).write .css) x.written ∧
        (¬x.isWhole → (n.isInteger ↔ x.isFinite ∧ ∃ whole : ℕ, x.written = whole)) := by
  by_cases zero : x.magnitude = 0
  · have spells : Numeral.Spells ⟨none, ['0'], [], none⟩ ['0'] x.written := by
      apply Numeral.spells_of_parts <;> simp [written, zero, Numeral.text]
    rw [if_pos zero]
    refine ⟨_, spells, fun part => absurd ?_ part⟩
    rw [isWhole, isFinite, zero, units_zero, Nat.zero_mod]
    decide
  · have positive := Nat.pos_of_ne_zero zero
    have reduced := reduced_shortest positive
    have rounded := Decimal.reduced_round (show 0 < 15 by decide) reduced
    obtain ⟨n, spells, isInteger⟩ :=
      Decimal.exists_write (show 0 < DecimalFormat.css.precision by decide) reduced
    rw [if_neg zero]
    simp only [written, if_neg zero]
    refine ⟨n, spells, fun part => ?_⟩
    rw [isInteger, rounded.isWhole_iff]
    constructor
    · rintro ⟨⟨-, within⟩, whole⟩
      refine ⟨?_, whole⟩
      rw [isFinite, decide_eq_true_eq]
      by_contra tooLarge
      exact absurd within (Int.not_le.mpr (lt_point_shortest (Nat.not_lt.mp tooLarge)))
    · rintro ⟨finite, whole⟩
      refine ⟨⟨?_, point_shortest_le finite part⟩, whole⟩
      have more := List.length_pos_iff.mpr rounded.some_digit
      have carried := Decimal.point_round_le 15 (shortest x.magnitude)
      have least : DecimalFormat.css.leastPoint = -5 := rfl
      omega

end Double

namespace Numeric

/-- The sign that is written in front of a number. -/
def sign (p : Numeric) : Option Char :=
  if p.value.negative then some '-' else if p.hasSign then some '+' else none

/-- What the payload of every token is: a number, and written with a sign if it is negative. -/
structure IsNumber (p : Numeric) : Prop where
  notNaN : p.value.isNaN = false
  hasSign : p.value.negative → p.hasSign

/-- The numeral that is the text of a number. -/
structure Written (p : Numeric) (n : Numeral) : Prop where
  wellFormed : n.WellFormed
  text : p.numberPieces.flatten = n.text
  sign : n.sign = p.sign
  integer : p.isInteger → n.isInteger ∧ n.rational = p.value.toInt32
  decimal : p.isInteger = false → n.rational = Double.sign p.value.negative * p.value.written ∧
    (n.isInteger ↔
      p.value.isFinite ∧ ¬p.value.isWhole ∧ ∃ whole : ℕ, p.value.written = whole)

variable {p : Numeric}

/-- Truncating keeps the sign of a number. -/
theorem toInt32_sign (x : Double) :
    (x.negative → x.toInt32 ≤ 0) ∧ (x.negative = false → 0 ≤ x.toInt32) := by
  have size : (0 : ℤ) ≤ (Double.units x.magnitude : ℤ) / Double.unitsPerOne := by positivity
  simp only [Double.toInt32, Double.truncate]
  constructor
  · intro negative
    simp only [negative, if_true]
    split <;> omega
  · intro positive
    simp only [positive, Bool.false_eq_true, if_false]
    split <;> omega

theorem isSign_sign (p : Numeric) : IsSign p.sign := by
  intro c mem
  simp only [sign] at mem
  split at mem
  · exact .inr (Option.some.inj mem).symm
  · split at mem
    · exact .inl (Option.some.inj mem).symm
    · cases mem

/-- An integer is written with its sign, which zero has too. -/
theorem flatten_numberPieces_integer (integer : p.isInteger) :
    p.numberPieces.flatten = p.sign.toList ++ Nat.toDigits 10 p.value.toInt32.natAbs := by
  have value : p.intValue? = some p.value.toInt32 := if_pos integer
  simp only [numberPieces, value, sign, intText]
  by_cases negative : p.value.negative
  · have nonpos := (toInt32_sign p.value).1 negative
    by_cases zero : p.value.toInt32 = 0
    · simp [negative, zero]
    · have less : p.value.toInt32 < 0 := by omega
      simp [negative, zero, less]
  · have nonneg := (toInt32_sign p.value).2 (by simpa using negative)
    have notLess : ¬p.value.toInt32 < 0 := by omega
    by_cases plus : p.hasSign <;> simp [negative, notLess, plus]

/-- What is not an integer is written with its sign, and with a fraction if it is whole and its
decimal shows neither a point nor an exponent. -/
theorem flatten_numberPieces_decimal (isNumber : p.IsNumber) (decimal : p.isInteger = false)
    {body : Text} (absolute : body =
      if p.value.magnitude = 0 then ['0'] else (Double.shortest p.value.magnitude).write .css) :
    p.numberPieces.flatten = p.sign.toList ++
      (body ++ if p.value.isWhole ∧ '.' ∉ body ∧ 'e' ∉ body then ['.', '0'] else []) := by
  have value : p.intValue? = none := if_neg (by simp [decimal])
  have text : p.value.decimalText = (if p.value.negative then ['-'] else []) ++ body := by
    simp [Double.decimalText, isNumber.notNaN, absolute]
  have shown (c : Char) (other : c ≠ '-') : p.value.decimalText.contains c = decide (c ∈ body) := by
    rw [text]
    split <;> simp [other]
  have point := shown '.' (by decide)
  have mark := shown 'e' (by decide)
  have fraction : (if p.value.isWhole && !decide ('.' ∈ body) && !decide ('e' ∈ body) then
        [['.', '0']] else []).flatten =
      if p.value.isWhole ∧ '.' ∉ body ∧ 'e' ∉ body then ['.', '0'] else [] := by
    simp only [Bool.and_eq_true, Bool.not_eq_true', decide_eq_false_iff_not, and_assoc]
    split <;> rfl
  simp only [numberPieces, value, point, mark]
  rw [List.flatten_append, List.flatten_cons, fraction, text, sign]
  by_cases negative : p.value.negative
  · simp [negative]
  · by_cases plus : p.hasSign <;> simp [negative, plus]

theorem sign_eq_minus (p : Numeric) : (p.sign == some '-') = p.value.negative := by
  by_cases negative : p.value.negative
  · simp [sign, negative]
  · by_cases plus : p.hasSign <;> simp [sign, negative, plus]

/-- An integer is written as a numeral for its value. -/
theorem exists_written_integer (integer : p.isInteger) : ∃ n : Numeral, p.Written n := by
  have spells : Numeral.Spells ⟨none, Nat.toDigits 10 p.value.toInt32.natAbs, [], none⟩
      (Nat.toDigits 10 p.value.toInt32.natAbs) p.value.toInt32.natAbs := by
    refine Numeral.spells_of_parts
      (fun c mem => Nat.isDigit_of_mem_toDigits (by decide) (by decide) mem) (by simp)
      (.inl Nat.toDigits_ne_nil) (by simp) (by simp [Numeral.text]) ?_
    rw [List.append_nil, digitsValue_toDigits]
    simp
  obtain ⟨wf, text, rational, isInteger⟩ := spells.signed (isSign_sign p)
  refine ⟨_, wf, ?_, rfl, fun _ => ⟨isInteger.trans (by simp [Numeral.isInteger]), ?_⟩, ?_⟩
  · rw [text, flatten_numberPieces_integer integer]
  · rw [rational, sign_eq_minus, Double.sign]
    by_cases negative : p.value.negative
    · have nonpos := (toInt32_sign p.value).1 negative
      rw [if_pos negative, ← Int.cast_natCast, Int.ofNat_natAbs_of_nonpos nonpos]
      push_cast
      ring
    · have nonneg := (toInt32_sign p.value).2 (by simpa using negative)
      rw [if_neg negative, ← Int.cast_natCast, Int.natAbs_of_nonneg nonneg, one_mul]
  · rw [integer]
    simp

/-- A number that is no integer is written as a numeral for its rounded decimal. -/
theorem exists_written_decimal (isNumber : p.IsNumber) (decimal : p.isInteger = false) :
    ∃ n : Numeral, p.Written n := by
  obtain ⟨n, spells, isInteger⟩ := p.value.exists_spells
  have shown := Numeral.isInteger_iff_of_mark spells.mark spells.wellFormed
  have whole := flatten_numberPieces_decimal isNumber decimal rfl
  rw [← spells.text] at whole
  -- The fraction is added where the text would be that of an integer, but only to whole numbers.
  by_cases added : p.value.isWhole ∧ '.' ∉ n.text ∧ 'e' ∉ n.text
  · obtain ⟨m, pointed, notInteger⟩ := spells.pointed (shown.mpr added.2)
    obtain ⟨wf, text, rational, same⟩ := pointed.signed (isSign_sign p)
    refine ⟨_, wf, ?_, rfl, fun h => absurd h (by simp [decimal]), fun _ => ⟨?_, ?_⟩⟩
    · rw [whole, if_pos added, text, spells.text]
    · rw [rational, sign_eq_minus]
    · rw [same, notInteger]
      simp [added.1]
  · obtain ⟨wf, text, rational, same⟩ := spells.signed (isSign_sign p)
    refine ⟨_, wf, ?_, rfl, fun h => absurd h (by simp [decimal]), fun _ => ⟨?_, ?_⟩⟩
    · rw [whole, if_neg added, List.append_nil, text, spells.text]
    · rw [rational, sign_eq_minus]
    · rw [same]
      by_cases isWhole : p.value.isWhole
      · have notInteger : ¬n.isInteger := fun h => added ⟨isWhole, shown.mp h⟩
        simp [isWhole, notInteger]
      · rw [isInteger isWhole]
        simp [isWhole]

theorem exists_written (isNumber : p.IsNumber) : ∃ n : Numeral, p.Written n := by
  by_cases integer : p.isInteger
  · exact exists_written_integer integer
  · exact exists_written_decimal isNumber (by simpa using integer)

end Numeric

end CssSyntax
