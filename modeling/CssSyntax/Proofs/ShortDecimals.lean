import CssSyntax.Proofs.FewestDigits
import CssSyntax.Proofs.Integers
import Mathlib.Data.Nat.Prime.Basic

/-!
Decimals of at most fifteen digits. The number written for the double that such a decimal reads back
as is read back as that double again. The shortest decimal is written as it is if it has no more
digits. If it has more, the shorter decimal is a midpoint that halves to even lead to; then it has
the place of the fifteenth digit and is what the shortest decimal is rounded to.
-/

namespace CssSyntax

namespace Double

/-- A decimal of at most so many digits reads back as the absolute value of a double. -/
def HasDecimal (x : Double) (count : Nat) : Prop :=
  ∃ (digits : ℕ) (exponent : ℤ),
    digits < 10 ^ count ∧ (ofDecimal false digits exponent).magnitude = x.magnitude

theorem HasDecimal.closest {x : Double} {count : Nat} (h : x.HasDecimal count) :
    ∃ (digits : ℕ) (exponent : ℤ), digits < 10 ^ count ∧
      Closest infinite x.magnitude (digits * 10 ^ exponent * unitsPerOne) := by
  obtain ⟨digits, exponent, few, same⟩ := h
  refine ⟨digits, exponent, few, same ▸ IsNearest.closest_magnitude ?_⟩
  rw [negative_ofDecimal]
  exact isNearest_ofDecimal false digits exponent

/-- What is divided by a power of two as often as by ten, and is odd then, was divided by five. -/
theorem pow_five_le {digits odd bits places : Nat} (isOdd : odd % 2 = 1)
    (same : digits * 2 ^ bits = odd * 10 ^ places) : 5 ^ bits ≤ digits := by
  have split : digits * 2 ^ bits = odd * 5 ^ places * 2 ^ places := by
    rw [same, Nat.mul_assoc, ← Nat.mul_pow]
  have two_odd : Nat.Coprime 2 odd := Nat.coprime_two_left.mpr (Nat.odd_iff.mpr isOdd)
  have coprime : Nat.Coprime (2 ^ bits) (odd * 5 ^ places) :=
    (two_odd.pow_left bits).mul_right (Nat.Coprime.pow bits places (by decide))
  have enough : bits ≤ places :=
    Nat.pow_dvd_pow_iff_le_right'.mp (coprime.dvd_of_dvd_mul_left (Dvd.intro_left _ split))
  have divides : 5 ^ places ∣ digits := by
    have all : 5 ^ places ∣ digits * 2 ^ bits := by
      rw [split, Nat.mul_right_comm]
      exact Nat.dvd_mul_left _ _
    exact (Nat.Coprime.pow places bits (by decide)).dvd_of_dvd_mul_right all
  have positive : 0 < digits := by
    rcases Nat.eq_zero_or_pos digits with rfl | positive
    · have positive : 0 < odd * 10 ^ places := Nat.mul_pos (by omega) (Nat.pow_pos (by decide))
      omega
    · exact positive
  exact (Nat.pow_le_pow_right (by decide) enough).trans (Nat.le_of_dvd positive divides)

/-- Half an odd number of units has many digits, since it ends more than a thousand places behind
the point. -/
theorem two_mul_ne_odd {digits n : Nat} {exponent : ℤ} (few : digits < 10 ^ 15) :
    2 * (digits * (10 : ℚ) ^ exponent * unitsPerOne) ≠ (2 * n + 1 : ℕ) := by
  intro same
  obtain ⟨bits, more, two_units⟩ : ∃ bits, 22 ≤ bits ∧ 2 * unitsPerOne = 2 ^ bits :=
    ⟨1074 + 1, by decide, (congrArg (2 * ·) unitsPerOne_eq).trans (pow_succ' 2 1074).symm⟩
  generalize unitsPerOne = one at same two_units
  rcases Int.le_total 0 exponent with nonneg | nonpos
  · obtain ⟨zeros, rfl⟩ := Int.eq_ofNat_of_zero_le nonneg
    rw [zpow_natCast] at same
    have even : 2 * (digits * 10 ^ zeros * one) = 2 * n + 1 := by exact_mod_cast same
    omega
  · obtain ⟨places, rfl⟩ := Int.exists_eq_neg_ofNat nonpos
    have scaled : digits * (2 * one) = (2 * n + 1) * 10 ^ places := by
      have scaled : (digits * (2 * one) : ℚ) = (2 * n + 1 : ℕ) * 10 ^ places := by
        rw [← same, zpow_neg, zpow_natCast]
        field_simp
      exact_mod_cast scaled
    rw [two_units] at scaled
    have many := pow_five_le (by omega) scaled
    have least : 5 ^ 22 ≤ 5 ^ bits := Nat.pow_le_pow_right (by decide) more
    have large : 10 ^ 15 ≤ 5 ^ 22 := by decide
    omega

variable {before : Nat}

/-- Two numbers between the midpoints around a double are close for their size, if the double has
all its binary digits. -/
theorem abs_sub_lt_of_inside {inner number : ℚ} (coarse : 2 * leastNormal ≤ before + 1)
    (inside : Inside before inner)
    (low : (units before + units (before + 1) : ℚ) ≤ 2 * (number * unitsPerOne))
    (high : 2 * (number * unitsPerOne) ≤ (units (before + 1) + units (before + 2) : ℚ)) :
    (2 ^ 53 - 1) * |inner - number| < 2 * inner := by
  have one := cast_unitsPerOne_pos
  have narrow : units (before + 1) ≤ units before + 2 ^ ((before + 1) / leastNormal - 1) := by
    rw [units_succ]
    refine Nat.add_le_add_left (Nat.pow_le_pow_right two_pos ?_) _
    exact Nat.sub_le_sub_right (Nat.div_le_div_right (Nat.le_succ before)) 1
  have above := units_succ (before + 1)
  obtain ⟨count, split, least, greatest⟩ := exists_scaled (before + 1)
  generalize (before + 1) / leastNormal - 1 = spacing at *
  have normal : leastNormal ≤ count := by
    refine least.resolve_left ?_
    rintro rfl
    omega
  have large : 2 ^ 52 * 2 ^ spacing ≤ units (before + 1) := by
    rw [split, units_scaled least greatest.le, ← leastNormal_eq]
    exact Nat.mul_le_mul_right _ normal
  have narrow : (units (before + 1) : ℚ) ≤ units before + 2 ^ spacing := by exact_mod_cast narrow
  have above : (units (before + 2) : ℚ) = units (before + 1) + 2 ^ spacing := by
    exact_mod_cast above
  have large : (2 ^ 52 * 2 ^ spacing : ℚ) ≤ units (before + 1) := by exact_mod_cast large
  obtain ⟨inner_low, inner_high⟩ := inside
  have close : |inner - number| * unitsPerOne < 2 ^ spacing := by
    rw [← abs_of_pos one, ← abs_mul, sub_mul, abs_lt]
    constructor <;> linarith
  refine lt_of_mul_lt_mul_right ?_ one.le
  linarith

/-- On a midpoint, a decimal of at most fifteen digits is next to a double with all its binary
digits. -/
theorem coarse_of_midpoint {digits : Nat} {exponent : ℤ} (few : digits < 10 ^ 15)
    (low : (units before + units (before + 1) : ℚ) ≤ 2 * (digits * 10 ^ exponent * unitsPerOne))
    (high : 2 * (digits * 10 ^ exponent * unitsPerOne) ≤
      (units (before + 1) + units (before + 2) : ℚ))
    (outside : ¬Inside before (digits * 10 ^ exponent)) : 2 * leastNormal ≤ before + 1 := by
  by_contra small
  have first : units before = before := units_of_lt (by omega)
  have second : units (before + 1) = before + 1 := units_of_lt (by omega)
  have third : units (before + 2) = before + 2 := by
    have spacing : (before + 1) / leastNormal - 1 = 0 := by
      have := Nat.div_lt_of_lt_mul (Nat.mul_comm 2 _ ▸ Nat.not_le.mp small)
      omega
    rw [units_succ, spacing, second, Nat.pow_zero]
  have below : (units before + units (before + 1) : ℚ) = (2 * before + 1 : ℕ) := by
    rw [first, second]
    push_cast
    ring
  have above : (units (before + 1) + units (before + 2) : ℚ) = (2 * (before + 1) + 1 : ℕ) := by
    rw [second, third]
    push_cast
    ring
  refine outside ⟨lt_of_le_of_ne low ?_, lt_of_le_of_ne high ?_⟩
  · rw [below]
    exact (two_mul_ne_odd few).symm
  · rw [above]
    exact two_mul_ne_odd few

/-- Where the shortest decimal is long, a short one that is not below the lower midpoint is a whole
number of its fifteenth places. Otherwise it would be below the power of ten at the first digit, and
that power would be the shortest decimal. -/
theorem exists_onGrid_of_low {digits : Nat} {exponent : ℤ} (few : digits < 10 ^ 15)
    (long : 15 < (shortest (before + 1)).digits.length)
    (low : (units before + units (before + 1) : ℚ) ≤ 2 * (digits * 10 ^ exponent * unitsPerOne)) :
    ∃ count : ℕ, digits * (10 : ℚ) ^ exponent =
      count * 10 ^ ((shortest (before + 1)).point - (15 : ℕ)) := by
  have ten : (10 : ℚ) ≠ 0 := by norm_num
  have one := cast_unitsPerOne_pos
  have between := shortest_between before
  obtain ⟨first, -⟩ := (reduced_shortest (Nat.succ_pos before)).bounds
  generalize (shortest (before + 1)).point = point at *
  have coarse : point - (15 : ℕ) ≤ exponent := by
    by_contra fine
    have below : digits * (10 : ℚ) ^ exponent < 10 ^ (point - 1) := by
      calc digits * (10 : ℚ) ^ exponent
          < 10 ^ 15 * 10 ^ exponent :=
            mul_lt_mul_of_pos_right (by exact_mod_cast few) (zpow_pos (by norm_num) _)
        _ = 10 ^ (exponent + (15 : ℕ)) := by rw [zpow_add₀ ten, zpow_natCast, mul_comm]
        _ ≤ 10 ^ (point - 1) := zpow_le_zpow_right₀ (by norm_num) (by omega)
    have power : Inside before ((1 : ℕ) * 10 ^ (point - 1)) := by
      have scaled := mul_lt_mul_of_pos_right below one
      have within := mul_le_mul_of_nonneg_right first one.le
      rw [Nat.cast_one, one_mul]
      exact ⟨by linarith, by linarith [between.high]⟩
    have short := length_shortest_le (show 1 < 10 ^ 1 by decide) (by decide) (by decide) power
    omega
  obtain ⟨zeros, rfl⟩ := Int.le.dest coarse
  refine ⟨digits * 10 ^ zeros, ?_⟩
  rw [zpow_add₀ ten, zpow_natCast]
  push_cast
  ring

/-- Two whole numbers of steps near the same number are the same. -/
theorem eq_of_near {count other : Nat} {step number : ℚ} (positive : 0 < step)
    (close : 2 * |count * step - number| ≤ step) (near : 2 * |number - other * step| < step) :
    count = other := by
  have apart : |(count : ℚ) - other| * step < 1 * step := by
    have triangle := abs_sub_le (count * step) number (other * step)
    rw [← sub_mul, abs_mul, abs_of_pos positive] at triangle
    linarith
  have less : |(count : ℤ) - other| < 1 := by
    have := lt_of_mul_lt_mul_right apart positive.le
    exact_mod_cast this
  have same := sub_eq_zero.mp (Int.abs_lt_one_iff.mp less)
  exact_mod_cast same

/-- A decimal of at most fifteen digits that reads back as a double whose shortest decimal is longer
is what that one is rounded to. -/
theorem rational_round_shortest {digits : Nat} {exponent : ℤ} (few : digits < 10 ^ 15)
    (long : 15 < (shortest (before + 1)).digits.length) (finite : before + 1 < infinite)
    (closest : Closest infinite (before + 1) (digits * 10 ^ exponent * unitsPerOne)) :
    ((shortest (before + 1)).round 15).rational = digits * 10 ^ exponent := by
  have between := shortest_between before
  have reduced := reduced_shortest (Nat.succ_pos before)
  obtain ⟨-, last⟩ := reduced.bounds
  obtain ⟨low, high⟩ := closest.midpoints finite
  have outside : ¬Inside before (digits * 10 ^ exponent) := fun inside =>
    absurd long (Nat.not_lt.mpr (length_shortest_le few (by decide) (by decide) inside))
  have near := abs_sub_lt_of_inside (coarse_of_midpoint few low high outside) between low high
  obtain ⟨count, -, whole, -, close⟩ := Decimal.round_of_length_gt (by decide) reduced long
  obtain ⟨other, onGrid⟩ := exists_onGrid_of_low few long low
  rw [whole, Decimal.rational_ofCount]
  rw [onGrid] at near ⊢
  generalize (shortest (before + 1)).rational = number at last near close
  generalize (shortest (before + 1)).point = point at last near close ⊢
  have step : (0 : ℚ) < 10 ^ (point - (15 : ℕ)) := zpow_pos (by norm_num) _
  have top : (10 : ℚ) ^ point = 10 ^ 15 * 10 ^ (point - (15 : ℕ)) := by
    rw [← zpow_natCast, ← zpow_add₀ (by norm_num)]
    congr 1
    push_cast
    ring
  have nearer : 2 * |number - other * 10 ^ (point - (15 : ℕ))| < 10 ^ (point - (15 : ℕ)) := by
    linarith
  rw [eq_of_near step close nearer]

/-- What is written for a double that a decimal of at most fifteen digits reads back as is closest
to it. -/
theorem HasDecimal.closest_written {x : Double} (h : x.HasDecimal 15) (finite : x.isFinite) :
    Closest infinite x.magnitude (x.written * unitsPerOne) := by
  obtain ⟨digits, exponent, few, closest⟩ := h.closest
  rcases Nat.eq_zero_or_pos x.magnitude with zero | positive
  · rw [written, if_pos zero, zero, zero_mul]
    exact closest_zero (le_refl 0) (by norm_num)
  · have inRange : x.magnitude < infinite := by simpa [isFinite] using finite
    rw [written, if_neg (Nat.ne_of_gt positive)]
    obtain ⟨before, hbefore⟩ := Nat.exists_eq_add_one.mpr positive
    rw [hbefore] at closest inRange ⊢
    rcases Nat.lt_or_ge 15 (shortest (before + 1)).digits.length with long | fits
    · rwa [rational_round_shortest few long inRange closest]
    · rw [(Decimal.round_of_length_le fits).2]
      exact (shortest_between before).closest inRange.le

end Double

/-- A finite number that is no integer is read back as the same double and as no integer, if any
decimal of at most fifteen digits reads back as its absolute value. -/
theorem tokenize_css_short {input : Text} {token : Token} {old : Numeric}
    (mem : token ∈ tokenize input) (numeric : token.kind ∈ [Kind.number, .percentage, .dimension])
    (payload : token.numeric = some old) (decimal : old.isInteger = false)
    (finite : old.value.isFinite) (short : old.value.HasDecimal 15) :
    ∃ (again : Token) (new : Numeric),
      tokenize token.css = [again, endToken (.after .start token.css)] ∧
        again.kind = token.kind ∧ again.numeric = some new ∧ new.value = old.value ∧
        new.isInteger = false := by
  obtain ⟨p, n, value, found, isNumber, -, written, again⟩ := exists_tokenize_css mem numeric
  obtain rfl : p = old := Option.some.inj (found.symm.trans payload)
  obtain ⟨rational, isInteger⟩ := written.decimal decimal
  have closest := short.closest_written finite
  have nearest := n.isNearest_value
  rw [rational, ← written.negative] at nearest
  have same := nearest.closest_magnitude.unique closest
  refine ⟨_, _, again, rfl, rfl, ?_, ?_⟩
  · refine Double.eq_of_rational_eq written.negative ?_
    rw [Lexeme.payload, Double.rational, Double.rational, written.negative, same]
  · by_contra integer
    obtain ⟨-, part, whole, hwhole⟩ := isInteger.mp (by simpa [Lexeme.payload] using integer)
    rw [hwhole] at closest
    refine part ((Double.isWhole_iff _).mpr ⟨finite, ?_⟩)
    exact Double.exists_rational_eq closest.dvd_units

/-- `1e23` is a midpoint, so the shortest decimal has sixteen digits. Cut to fifteen digits it is
written as `10e22`. -/
theorem tokenize_css_short_midpoint :
    let large : Numeric := ⟨⟨false, 0x44B52D02C7E14AF6, by decide⟩, false, false, none⟩
    let text : Text := ['1', 'e', '2', '3']
    let token : Token := ⟨⟨.number, text, some large, false⟩, text, .start⟩
    token ∈ tokenize text ∧ large.isInteger = false ∧ large.value.isFinite ∧
      large.value.HasDecimal 15 ∧
      ∃ (again : Token) (new : Numeric),
        tokenize token.css = [again, endToken (.after .start token.css)] ∧
          again.kind = .number ∧ again.numeric = some new ∧ new.value = large.value ∧
          new.isInteger = false := by
  intro large text token
  let n : Numeral := ⟨none, ['1'], [], some ⟨'e', none, ['2', '3']⟩⟩
  have numeral : Numeral.read text = some (n, []) := by decide
  have value : n.value = large.value := by decide +kernel
  have mem : token ∈ tokenize text := by
    have number := number_mem_tokenize numeral
    rw [Lexeme.payload, value] at number
    exact number
  have finite : large.value.isFinite := by decide
  have short : large.value.HasDecimal 15 := ⟨1, 23, by decide, by decide +kernel⟩
  exact ⟨mem, rfl, finite, short, tokenize_css_short mem (by decide) rfl rfl finite short⟩

end CssSyntax
