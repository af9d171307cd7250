import CssSyntax.Numeric.Written
import CssSyntax.Proofs.Literals
import CssSyntax.Proofs.Shortest

/-!
The text of decimals. Digits are cut by rounding the decimal to a whole number of its last place,
and in either notation the text is a numeral that writes the rounded decimal.
-/

namespace CssSyntax

/-- A number with a given count of digits. -/
theorem length_toDigits_eq {n length : Nat} (least : 10 ^ length ≤ n)
    (greatest : n < 10 ^ (length + 1)) : (Nat.toDigits 10 n).length = length + 1 := by
  have nonzero : n ≠ 0 := Nat.ne_of_gt (Nat.lt_of_lt_of_le (Nat.pow_pos (by decide)) least)
  obtain ⟨other, hother, low, high⟩ := Double.exists_length_toDigits nonzero
  have short := (Nat.pow_lt_pow_iff_right (by decide)).mp (Nat.lt_of_le_of_lt least high)
  have long := (Nat.pow_lt_pow_iff_right (by decide)).mp (Nat.lt_of_le_of_lt low greatest)
  omega

namespace Decimal

/-- A decimal with at most so many digits, the last of them rounded. -/
def round (precision : Nat) (d : Decimal) : Decimal :=
  let cut := roundDigits precision d.digits
  ⟨cut.1, if cut.2 then d.point + 1 else d.point⟩

theorem round_of_length_le {precision : Nat} {d : Decimal} (fits : d.digits.length ≤ precision) :
    roundDigits precision d.digits = (d.digits, false) ∧ d.round precision = d := by
  have same : roundDigits precision d.digits = (d.digits, false) := by
    rw [roundDigits, List.drop_eq_nil_of_le fits]
  exact ⟨same, by rw [round, same]; rfl⟩

/-- A number has as many digits as places were kept, or one more if the rounding carried. -/
theorem ofCount_kept {count precision : Nat} (positive : 0 < precision)
    (least : 10 ^ (precision - 1) ≤ count) (greatest : count ≤ 10 ^ precision) (point : Int) :
    let written := Nat.toDigits 10 count
    (ofCount count (point - precision)).point =
        (if precision < written.length then point + 1 else point) ∧
      (precision < written.length → count = 10 ^ precision) := by
  intro written
  obtain ⟨places, rfl⟩ := Nat.exists_eq_add_one.mpr positive
  rw [Nat.add_sub_cancel] at least
  have place : (ofCount count (point - (places + 1 : ℕ))).point =
      point - (places + 1 : ℕ) + written.length := rfl
  rcases Nat.lt_or_eq_of_le greatest with below | carried
  · have same : written.length = places + 1 := length_toDigits_eq least below
    rw [place, same, if_neg (Nat.lt_irrefl _)]
    exact ⟨sub_add_cancel _ _, fun more => absurd more (Nat.lt_irrefl _)⟩
  · have one_more : written.length = places + 1 + 1 := by
      apply length_toDigits_eq
      · exact carried.ge
      · rw [carried]
        exact Nat.pow_lt_pow_succ (by decide)
    rw [place, one_more, if_pos (Nat.lt_succ_self _)]
    refine ⟨?_, fun _ => carried⟩
    push_cast
    ring

/-- The digits that rounding keeps, before it rounds them. -/
theorem Reduced.take_bounds {precision : Nat} (positive : 0 < precision) {d : Decimal}
    (reduced : d.Reduced) (long : precision < d.digits.length) :
    10 ^ (precision - 1) ≤ digitsValue (d.digits.take precision) ∧
      digitsValue (d.digits.take precision) < 10 ^ precision := by
  have kept : ∀ c ∈ d.digits.take precision, c.isDigit :=
    fun c mem => reduced.digits c (List.mem_of_mem_take mem)
  have dropped : ∀ c ∈ d.digits.drop precision, c.isDigit :=
    fun c mem => reduced.digits c (List.mem_of_mem_drop mem)
  have kept_lt := digitsValue_lt kept
  have places : d.digits.length - 1 = precision - 1 + (d.digits.drop precision).length := by
    rw [List.length_drop]
    omega
  have split : digitsValue d.digits =
      digitsValue (d.digits.take precision) * 10 ^ (d.digits.drop precision).length +
        digitsValue (d.digits.drop precision) := by
    rw [← digitsValue_append, List.take_append_drop]
  have first := reduced.first
  rw [places, split] at first
  rw [List.length_take_of_le (Nat.le_of_lt long)] at kept_lt
  exact ⟨pow_le_of_mul_add (digitsValue_lt dropped) first, kept_lt⟩

/-- What is too long is cut to the number of the digits kept, or the next one if the digits cut off
make up half of the last place or more. -/
theorem exists_roundDigits {precision : Nat} {digits : Text} (all : ∀ c ∈ digits, c.isDigit)
    (long : precision < digits.length) :
    ∃ carry ≤ 1,
      let written := Nat.toDigits 10 (digitsValue (digits.take precision) + carry)
      roundDigits precision digits =
          (Double.dropTrailingZeros written, decide (precision < written.length)) ∧
        (carry = 1 ↔
          10 ^ (digits.drop precision).length ≤ 2 * digitsValue (digits.drop precision)) := by
  have dropped : digits.drop precision ≠ [] := by
    rw [ne_eq, List.drop_eq_nil_iff]
    omega
  have cut : ∀ c ∈ digits.drop precision, c.isDigit :=
    fun c mem => all c (List.mem_of_mem_drop mem)
  obtain ⟨next, others, hdropped⟩ := List.exists_cons_of_ne_nil dropped
  rw [hdropped] at cut ⊢
  obtain ⟨digit, others_digits⟩ := List.forall_mem_cons.mp cut
  have value : digitsValue (next :: others) =
      (next.toNat - 48) * 10 ^ others.length + digitsValue others := by
    rw [← List.singleton_append, digitsValue_append, digitsValue_singleton]
  have others_lt := digitsValue_lt others_digits
  refine ⟨if '5' ≤ next then 1 else 0, ?_, ?_, ?_⟩
  · split <;> decide
  · simp only [roundDigits, hdropped]
  · rw [value, List.length_cons, Nat.pow_succ]
    by_cases half : '5' ≤ next
    · have five : 5 ≤ next.toNat - 48 := by
        have : '5'.toNat ≤ next.toNat := half
        have : '5'.toNat = 53 := rfl
        omega
      have most := Nat.mul_le_mul_right (10 ^ others.length) five
      simp only [half, if_true, true_iff]
      omega
    · have four : next.toNat - 48 ≤ 4 := by
        have : next.toNat < '5'.toNat := Nat.not_le.mp half
        have : '5'.toNat = 53 := rfl
        omega
      have least := Nat.mul_le_mul_right (10 ^ others.length) four
      simp only [half, if_false, zero_ne_one, false_iff]
      omega

/-- Half a place or less is cut off, or missing from the next place. -/
theorem carry_close {carry behind more : Nat} (carry_le : carry ≤ 1)
    (half : carry = 1 ↔ 10 ^ more ≤ 2 * behind) (behind_lt : behind < 10 ^ more) :
    2 * |(carry : ℚ) - behind / 10 ^ more| ≤ 1 := by
  have scale : (0 : ℚ) < 10 ^ more := by positivity
  rcases Nat.le_one_iff_eq_zero_or_eq_one.mp carry_le with rfl | rfl
  · have small : (behind : ℚ) / 10 ^ more ≤ 1 / 2 := by
      have less : behind * 2 ≤ 1 * 10 ^ more := by omega
      rw [div_le_div_iff₀ scale two_pos]
      exact_mod_cast less
    rw [Nat.cast_zero, zero_sub, abs_neg, abs_of_nonneg (by positivity)]
    linarith
  · have large : 1 / 2 ≤ (behind : ℚ) / 10 ^ more := by
      have least : 1 * 10 ^ more ≤ behind * 2 := by omega
      rw [div_le_div_iff₀ two_pos scale]
      exact_mod_cast least
    have below : (behind : ℚ) / 10 ^ more ≤ 1 := by
      rw [div_le_one scale]
      exact_mod_cast behind_lt.le
    rw [Nat.cast_one, abs_of_nonneg (by linarith)]
    linarith

/-- The places of a decimal that are kept, and those behind them. -/
theorem rational_split {precision : Nat} {d : Decimal} (within : precision ≤ d.digits.length) :
    d.rational = (digitsValue (d.digits.take precision) +
      digitsValue (d.digits.drop precision) / 10 ^ (d.digits.drop precision).length) *
        10 ^ (d.point - precision) := by
  have split : digitsValue d.digits =
      digitsValue (d.digits.take precision) * 10 ^ (d.digits.drop precision).length +
        digitsValue (d.digits.drop precision) := by
    rw [← digitsValue_append, List.take_append_drop]
  have places : d.point - d.digits.length =
      d.point - precision - (d.digits.drop precision).length := by
    rw [List.length_drop]
    omega
  rw [rational, split, places, zpow_sub₀ (by norm_num), zpow_natCast]
  push_cast
  field_simp

/-- Rounding makes a decimal the nearest whole number of its last place; a carry out of the top
makes that a power of ten. -/
theorem round_of_length_gt {precision : Nat} (positive : 0 < precision) {d : Decimal}
    (reduced : d.Reduced) (long : precision < d.digits.length) :
    ∃ count ≠ 0, d.round precision = .ofCount count (d.point - precision) ∧
      ((roundDigits precision d.digits).2 → count = 10 ^ precision) ∧
      2 * |count * (10 : ℚ) ^ (d.point - precision) - d.rational| ≤
        10 ^ (d.point - precision) := by
  obtain ⟨kept_ge, kept_lt⟩ := reduced.take_bounds positive long
  obtain ⟨carry, carry_le, whole, half⟩ := exists_roundDigits reduced.digits long
  have rational := rational_split long.le
  have behind_lt : digitsValue (d.digits.drop precision) < 10 ^ (d.digits.drop precision).length :=
    digitsValue_lt fun c mem => reduced.digits c (List.mem_of_mem_drop mem)
  generalize digitsValue (d.digits.drop precision) = behind at half rational behind_lt
  generalize (d.digits.drop precision).length = more at half rational behind_lt
  have close : 2 * |(digitsValue (d.digits.take precision) + carry : ℕ) *
      (10 : ℚ) ^ (d.point - precision) - d.rational| ≤ 10 ^ (d.point - precision) := by
    have place : (0 : ℚ) ≤ 10 ^ (d.point - precision) := zpow_nonneg (by norm_num) _
    rw [rational, ← sub_mul, Nat.cast_add, add_sub_add_left_eq_sub, abs_mul, abs_of_nonneg place,
      ← mul_assoc]
    exact mul_le_of_le_one_left place (carry_close carry_le half behind_lt)
  have least := Nat.le_add_right_of_le (k := carry) kept_ge
  have greatest : digitsValue (d.digits.take precision) + carry ≤ 10 ^ precision := by omega
  generalize digitsValue (d.digits.take precision) + carry = count at *
  obtain ⟨point, carried⟩ := ofCount_kept positive least greatest d.point
  refine ⟨count, Nat.ne_of_gt (Nat.lt_of_lt_of_le (Nat.pow_pos (by decide)) least), ?_, ?_, close⟩
  · rw [round, whole]
    simp only [decide_eq_true_eq, ← point]
    rfl
  · rw [whole]
    simpa using carried

/-- A carry moves the point by one. -/
theorem point_round_le (precision : Nat) (d : Decimal) :
    (d.round precision).point ≤ d.point + 1 := by
  simp only [round]
  split <;> omega

theorem reduced_round {precision : Nat} (positive : 0 < precision) {d : Decimal}
    (reduced : d.Reduced) : (d.round precision).Reduced := by
  rcases Nat.lt_or_ge precision d.digits.length with long | fits
  · obtain ⟨count, nonzero, whole, -⟩ := round_of_length_gt positive reduced long
    rw [whole]
    exact reduced_ofCount nonzero _
  · rwa [(round_of_length_le fits).2]

end Decimal

/-- A numeral without a sign, its text, and the number that it writes. -/
structure Numeral.Spells (n : Numeral) (text : Text) (number : ℚ) : Prop where
  wellFormed : n.WellFormed
  unsigned : n.sign = none
  mark : ∀ e ∈ n.exponent, e.mark = 'e'
  text : n.text = text
  rational : n.rational = number

namespace Numeral

theorem spells_of_parts {whole fraction text : Text} {exponent : Option Exponent} {number : ℚ}
    (whole_digits : ∀ c ∈ whole, c.isDigit) (fraction_digits : ∀ c ∈ fraction, c.isDigit)
    (some_digit : whole ≠ [] ∨ fraction ≠ [])
    (wellFormed : ∀ e ∈ exponent, e.WellFormed ∧ e.mark = 'e')
    (spelled : Numeral.text ⟨none, whole, fraction, exponent⟩ = text)
    (written : (digitsValue (whole ++ fraction) : ℚ) *
      10 ^ ((exponent.map Exponent.value).getD 0 - fraction.length) = number) :
    Spells ⟨none, whole, fraction, exponent⟩ text number := by
  refine ⟨⟨by simp [IsSign], whole_digits, fraction_digits, some_digit, fun e mem =>
    (wellFormed e mem).1⟩, rfl, fun e mem => (wellFormed e mem).2, spelled, ?_⟩
  rw [rational_eq, ← written]
  simp [Double.sign]

end Numeral

namespace Decimal

@[simp] theorem digitsValue_zeros_append (zeros : Nat) (digits : Text) :
    digitsValue (List.replicate zeros '0' ++ digits) = digitsValue digits := by
  rw [digitsValue_append, digitsValue_replicate_zero, Nat.zero_mul, Nat.zero_add]

theorem isDigit_of_mem_zeros {zeros : Nat} : ∀ c ∈ List.replicate zeros '0', c.isDigit := by
  intro c mem
  rw [List.eq_of_mem_replicate mem]
  rfl

/-- With its point in place, a decimal is a numeral without an exponent, which is an integer if no
digit stands behind the point. -/
theorem exists_positional {digits : Text} {point : Int} (reduced : Reduced ⟨digits, point⟩) :
    ∃ n : Numeral, n.Spells (positional digits point) (rational ⟨digits, point⟩) ∧
      (n.isInteger ↔ (digits.length : Int) ≤ point) := by
  have nonempty : digits ≠ [] := reduced.some_digit
  have all : ∀ c ∈ digits, c.isDigit := reduced.digits
  have more := List.length_pos_iff.mpr nonempty
  simp only [positional, rational]
  split
  · next behind =>
      -- The digits stand behind the point and some zeros.
      obtain ⟨zeros, hzeros⟩ := Int.eq_ofNat_of_zero_le (Int.neg_nonneg.mpr behind)
      have fraction : List.replicate zeros '0' ++ digits ≠ [] := by simp [nonempty]
      rw [hzeros, Int.toNat_natCast]
      refine ⟨⟨none, ['0'], List.replicate zeros '0' ++ digits, none⟩,
        Numeral.spells_of_parts (by simp) ?_ (.inr fraction) (by simp) ?_ ?_, ?_⟩
      · exact List.forall_mem_append.mpr ⟨isDigit_of_mem_zeros, all⟩
      · simp [Numeral.text, nonempty]
      · rw [List.singleton_append, ← List.cons_append, ← List.replicate_succ,
          digitsValue_zeros_append, List.length_append, List.length_replicate]
        congr 2
        simp only [Option.map_none, Option.getD_none]
        omega
      · simp only [Numeral.isInteger, fraction, Option.isNone_none, Bool.and_true, beq_iff_eq,
          false_iff]
        omega
  · next ahead =>
      obtain ⟨places, rfl⟩ := Int.eq_ofNat_of_zero_le (Int.le_of_lt (Int.not_le.mp ahead))
      rw [Int.toNat_natCast]
      split
      · next inside =>
          -- All digits stand in front of it, and zeros behind them.
          obtain ⟨zeros, rfl⟩ := Nat.exists_eq_add_of_le inside
          rw [Nat.add_sub_cancel_left]
          refine ⟨⟨none, digits ++ List.replicate zeros '0', [], none⟩,
            Numeral.spells_of_parts ?_ (by simp) (.inl (by simp [nonempty])) (by simp) ?_ ?_, ?_⟩
          · exact List.forall_mem_append.mpr ⟨all, isDigit_of_mem_zeros⟩
          · simp [Numeral.text]
          · have exponent : ((digits.length + zeros : ℕ) : ℤ) - digits.length = zeros := by omega
            rw [exponent, List.append_nil, digitsValue_append, digitsValue_replicate_zero,
              List.length_replicate]
            simp
          · simp [Numeral.isInteger]
      · next inside =>
          -- The point stands between the digits.
          have fraction : digits.drop places ≠ [] := by
            rw [ne_eq, List.drop_eq_nil_iff]
            exact inside
          refine ⟨⟨none, digits.take places, digits.drop places, none⟩,
            Numeral.spells_of_parts (fun c mem => all c (List.mem_of_mem_take mem))
              (fun c mem => all c (List.mem_of_mem_drop mem)) (.inr fraction) (by simp) ?_ ?_, ?_⟩
          · rw [Numeral.text, if_neg fraction]
            simp
          · rw [List.take_append_drop, List.length_drop]
            congr 2
            simp only [Option.map_none, Option.getD_none]
            omega
          · simp only [Numeral.isInteger, fraction, Option.isNone_none, Bool.and_true, beq_iff_eq,
              false_iff]
            omega

/-- The exponent that writes a number. -/
theorem exists_exponent (n : Int) :
    ∃ e : Exponent, (e.WellFormed ∧ e.mark = 'e') ∧ e.text = 'e' :: intText n ∧ e.value = n := by
  have digits : ∀ c ∈ Nat.toDigits 10 n.natAbs, c.isDigit :=
    fun c mem => Nat.isDigit_of_mem_toDigits (by decide) (by decide) mem
  have value := digitsValue_toDigits n.natAbs
  by_cases negative : n < 0
  · refine ⟨⟨'e', some '-', Nat.toDigits 10 n.natAbs⟩,
      ⟨⟨.inl rfl, by simp [IsSign], digits, Nat.toDigits_ne_nil⟩, rfl⟩, ?_, ?_⟩
    · simp [Exponent.text, intText, negative]
    · rw [Exponent.value, if_pos rfl, value]
      omega
  · refine ⟨⟨'e', none, Nat.toDigits 10 n.natAbs⟩,
      ⟨⟨.inl rfl, by simp [IsSign], digits, Nat.toDigits_ne_nil⟩, rfl⟩, ?_, ?_⟩
    · simp [Exponent.text, intText, negative]
    · rw [Exponent.value, if_neg (by simp), value]
      omega

/-- With an exponent, a decimal is a numeral that is no integer. -/
theorem exists_scientific {digits : Text} {point : Int} (reduced : Reduced ⟨digits, point⟩) :
    ∃ n : Numeral, n.Spells (scientific digits (point - 1)) (rational ⟨digits, point⟩) ∧
      n.isInteger = false := by
  obtain ⟨first, others, rfl⟩ := List.exists_cons_of_ne_nil reduced.some_digit
  obtain ⟨digit, more⟩ := List.forall_mem_cons.mp reduced.digits
  obtain ⟨e, wellFormed, htext, value⟩ := exists_exponent (point - 1)
  refine ⟨⟨none, [first], others, some e⟩,
    Numeral.spells_of_parts (by simpa using digit) more (.inl (by simp)) (by simpa using wellFormed)
      ?_ ?_, by simp [Numeral.isInteger]⟩
  · cases others <;> simp [Numeral.text, scientific, htext]
  · simp only [rational, List.singleton_append, List.length_cons, Option.map_some,
      Option.getD_some, value]
    congr 2
    omega

/-- Ten with an exponent, which is written if the rounding carried. -/
theorem exists_ten (point : Int) :
    ∃ n : Numeral, n.Spells ('1' :: '0' :: 'e' :: intText (point - 1)) (10 ^ point) ∧
      n.isInteger = false := by
  obtain ⟨e, wellFormed, htext, value⟩ := exists_exponent (point - 1)
  refine ⟨⟨none, ['1', '0'], [], some e⟩,
    Numeral.spells_of_parts (by simp) (by simp) (.inl (by simp)) (by simpa using wellFormed) ?_ ?_,
      by simp [Numeral.isInteger]⟩
  · simp [Numeral.text, htext]
  · have ten : digitsValue ['1', '0'] = 10 := by decide
    rw [List.append_nil, ten, Option.map_some, Option.getD_some, value, List.length_nil,
      Nat.cast_zero, sub_zero, zpow_sub₀ (by norm_num), zpow_one]
    push_cast
    field_simp

/-- A decimal is written as a numeral for the rounded decimal, which is an integer if it has its
point in place and no digit behind it. -/
theorem exists_write {format : DecimalFormat} (positive : 0 < format.precision) {d : Decimal}
    (reduced : d.Reduced) :
    ∃ n : Numeral, n.Spells (d.write format) (d.round format.precision).rational ∧
      (n.isInteger ↔ (format.leastPoint ≤ d.point ∧ d.point ≤ format.greatestPoint) ∧
        ((d.round format.precision).digits.length : Int) ≤ (d.round format.precision).point) := by
  have rounded := reduced_round positive reduced
  simp only [write]
  split
  · next inPlace =>
      obtain ⟨n, spells, isInteger⟩ := exists_positional rounded
      exact ⟨n, spells, isInteger.trans (and_iff_right inPlace).symm⟩
  · next beyond =>
      split
      · next carried =>
          -- The notation was chosen before the carry, so this is ten and not one with an exponent.
          rcases Nat.lt_or_ge format.precision d.digits.length with long | fits
          · obtain ⟨count, -, whole, power, -⟩ := round_of_length_gt positive reduced long
            obtain ⟨n, spells, isInteger⟩ := exists_ten d.point
            refine ⟨n, ?_, by simp [isInteger, beyond]⟩
            have number : (d.round format.precision).rational = 10 ^ d.point := by
              rw [whole, rational_ofCount, power carried]
              push_cast
              rw [← zpow_natCast, ← zpow_add₀ (by norm_num)]
              congr 1
              omega
            rwa [number]
          · rw [(round_of_length_le fits).1] at carried
            cases carried
      · next uncarried =>
          obtain ⟨n, spells, isInteger⟩ := exists_scientific rounded
          refine ⟨n, ?_, by simp [isInteger, beyond]⟩
          simpa [round, uncarried] using spells

end Decimal

end CssSyntax
