import CssSyntax.Double.Shortest
import CssSyntax.Proofs.Numerals
import CssSyntax.Proofs.Rounding
import Mathlib.Data.List.DropRight

/-!
The shortest decimal of a double. Seventeen digits are always enough, so one of the grids has a
decimal that reads back; it lies strictly between the midpoints to the neighbouring doubles, and its
digits end in no zero.
-/

namespace CssSyntax

@[simp] theorem digitsValue_replicate_zero (count : Nat) :
    digitsValue (List.replicate count '0') = 0 := by
  induction count with
  | zero => rfl
  | succ count ih =>
      rw [List.replicate_succ', digitsValue_append, ih]
      rfl

@[simp] theorem digitsValue_toDigits (n : Nat) : digitsValue (Nat.toDigits 10 n) = n :=
  Nat.ofDigitChars_toDigits (by decide) (by decide)

@[simp] theorem digitsValue_singleton (c : Char) : digitsValue [c] = c.toNat - 48 := by
  simp [digitsValue, Nat.ofDigitChars_cons]

theorem digitsValue_lt {digits : Text} (all : ∀ c ∈ digits, c.isDigit) :
    digitsValue digits < 10 ^ digits.length := by
  -- By the last digit, since that is how another digit changes the number.
  induction digits using List.reverseRecOn with
  | nil => decide
  | append_singleton front c ih =>
      have below := ih fun d mem => all d (List.mem_append_left _ mem)
      have bounds := Char.isDigit_iff_toNat.mp (all c (by simp))
      have nine : '9'.toNat = 57 := rfl
      rw [digitsValue_append, digitsValue_singleton, List.length_append, List.length_singleton,
        Nat.pow_succ]
      omega

/-- The digits that stay when a number loses places at its end. -/
theorem pow_le_of_mul_add {front behind places more : Nat} (behind_lt : behind < 10 ^ more)
    (least : 10 ^ (places + more) ≤ front * 10 ^ more + behind) : 10 ^ places ≤ front := by
  by_contra less
  have below : (front + 1) * 10 ^ more ≤ 10 ^ places * 10 ^ more :=
    Nat.mul_le_mul_right _ (by omega)
  rw [Nat.pow_add] at least
  rw [Nat.add_mul] at below
  omega

/-- A number is divided by ten where its last digit is a zero. -/
theorem not_dvd_digitsValue {front : Text} {c : Char} (digit : c.isDigit) (notZero : c ≠ '0') :
    ¬10 ∣ digitsValue (front ++ [c]) := by
  have apart : c.toNat ≠ '0'.toNat := fun same => notZero (Char.toNat_inj.mp same)
  have bounds := Char.isDigit_iff_toNat.mp digit
  rw [digitsValue_append, digitsValue_singleton]
  simp only [List.length_singleton, Nat.pow_one]
  have zero : '0'.toNat = 48 := rfl
  have nine : '9'.toNat = 57 := rfl
  omega

namespace Decimal

/-- The number that a decimal stands for. -/
def rational (d : Decimal) : ℚ := digitsValue d.digits * 10 ^ (d.point - d.digits.length)

/-- The digits of a decimal begin and end with others than zeros. -/
structure Reduced (d : Decimal) : Prop where
  digits : ∀ c ∈ d.digits, c.isDigit
  first : 10 ^ (d.digits.length - 1) ≤ digitsValue d.digits
  last : ¬10 ∣ digitsValue d.digits

theorem Reduced.some_digit {d : Decimal} (h : d.Reduced) : d.digits ≠ [] := by
  intro empty
  have last := h.last
  rw [empty] at last
  exact last (by decide)

/-- The point of a decimal says how large it is. -/
theorem Reduced.bounds {d : Decimal} (h : d.Reduced) :
    (10 : ℚ) ^ (d.point - 1) ≤ d.rational ∧ d.rational < 10 ^ d.point := by
  have positive : (0 : ℚ) < 10 ^ (d.point - d.digits.length) := zpow_pos (by norm_num) _
  have nonempty := List.length_pos_iff.mpr h.some_digit
  have low : d.point - 1 = (d.digits.length - 1 : ℕ) + (d.point - d.digits.length) := by omega
  have high : (10 : ℚ) ^ d.point =
      10 ^ (d.digits.length : ℤ) * 10 ^ (d.point - d.digits.length) := by
    rw [← zpow_add₀ (by norm_num)]
    congr 1
    omega
  rw [low, high, zpow_add₀ (by norm_num), rational, zpow_natCast, zpow_natCast]
  constructor
  · apply mul_le_mul_of_nonneg_right _ positive.le
    exact_mod_cast h.first
  · apply mul_lt_mul_of_pos_right _ positive
    exact_mod_cast digitsValue_lt h.digits

/-- A decimal without zeros at its end is a whole number if the point stands behind its digits. -/
theorem Reduced.isWhole_iff {d : Decimal} (h : d.Reduced) :
    (∃ whole : ℕ, d.rational = whole) ↔ (d.digits.length : Int) ≤ d.point := by
  have ten : (10 : ℚ) ≠ 0 := by norm_num
  constructor
  · rintro ⟨whole, same⟩
    by_contra behind
    obtain ⟨places, hplaces⟩ : ∃ places : ℕ, d.point - d.digits.length = -(places + 1 : ℕ) :=
      ⟨(d.digits.length - d.point - 1).toNat, by omega⟩
    rw [rational, hplaces, zpow_neg, zpow_natCast,
      mul_inv_eq_iff_eq_mul₀ (pow_ne_zero _ ten)] at same
    refine h.last ⟨whole * 10 ^ places, ?_⟩
    have scaled : digitsValue d.digits = whole * 10 ^ (places + 1) := by exact_mod_cast same
    rw [scaled, Nat.pow_succ]
    ring
  · intro within
    obtain ⟨zeros, hzeros⟩ : ∃ zeros : ℕ, d.point - d.digits.length = zeros :=
      ⟨(d.point - d.digits.length).toNat, by omega⟩
    refine ⟨digitsValue d.digits * 10 ^ zeros, ?_⟩
    rw [rational, hzeros, zpow_natCast]
    push_cast
    rfl

/-- Dropping the zeros at the end of a number divides it by a power of ten. -/
theorem exists_zeros (count : Nat) :
    let kept := Double.dropTrailingZeros (Nat.toDigits 10 count)
    ∃ zeros, Nat.toDigits 10 count = kept ++ List.replicate zeros '0' ∧
      count = digitsValue kept * 10 ^ zeros ∧
      (Nat.toDigits 10 count).length = kept.length + zeros := by
  intro kept
  have split : Nat.toDigits 10 count =
      kept ++ List.replicate ((Nat.toDigits 10 count).rtakeWhile (· == '0')).length '0' := by
    have all : ∀ c ∈ (Nat.toDigits 10 count).rtakeWhile (· == '0'), c = '0' := by
      intro c mem
      simpa using List.mem_rtakeWhile_imp mem
    rw [← List.eq_replicate_of_mem all]
    exact List.rdropWhile_append_rtakeWhile.symm
  have value := congrArg digitsValue split
  have lengths := congrArg List.length split
  rw [digitsValue_toDigits, digitsValue_append, digitsValue_replicate_zero, Nat.add_zero,
    List.length_replicate] at value
  rw [List.length_append, List.length_replicate] at lengths
  exact ⟨_, split, value, lengths⟩

@[simp] theorem rational_ofCount (count : Nat) (place : Int) :
    (ofCount count place).rational = count * 10 ^ place := by
  obtain ⟨zeros, -, value, lengths⟩ := exists_zeros count
  have exponent : (ofCount count place).point - (ofCount count place).digits.length =
      zeros + place := by
    simp only [ofCount]
    omega
  rw [rational, exponent, zpow_add₀ (by norm_num), zpow_natCast, ← mul_assoc]
  congr 1
  exact_mod_cast value.symm

theorem reduced_ofCount {count : Nat} (nonzero : count ≠ 0) (place : Int) :
    (ofCount count place).Reduced := by
  obtain ⟨zeros, split, value, lengths⟩ := exists_zeros count
  obtain ⟨length, hlength, least, -⟩ := Double.exists_length_toDigits nonzero
  have kept : ∀ c ∈ Double.dropTrailingZeros (Nat.toDigits 10 count), c.isDigit := by
    intro c mem
    have inside : c ∈ Nat.toDigits 10 count := split ▸ List.mem_append_left _ mem
    exact Nat.isDigit_of_mem_toDigits (by decide) (by decide) inside
  have more : Double.dropTrailingZeros (Nat.toDigits 10 count) ≠ [] := by
    intro empty
    rw [empty] at value
    exact nonzero (value.trans (Nat.zero_mul _))
  have notZero : (Double.dropTrailingZeros (Nat.toDigits 10 count)).getLast more ≠ '0' := by
    intro same
    exact List.rdropWhile_last_not (· == '0') (Nat.toDigits 10 count) more (beq_iff_eq.mpr same)
  constructor
  · exact kept
  · have places :
        (Double.dropTrailingZeros (Nat.toDigits 10 count)).length - 1 + zeros = length := by
      have := List.length_pos_iff.mpr more
      omega
    rw [value, ← Nat.add_zero (_ * _), ← places] at least
    exact pow_le_of_mul_add (Nat.pow_pos (by decide)) least
  · rw [ofCount, ← List.dropLast_append_getLast more]
    exact not_dvd_digitsValue (kept _ (List.getLast_mem more)) notZero

end Decimal

namespace Double

theorem roundQuotient_bounds (num : Nat) {den : Nat} (positive : 0 < den) :
    2 * num ≤ 2 * (roundQuotient num den * den) + den ∧
      2 * (roundQuotient num den * den) ≤ 2 * num + den := by
  have hden : (0 : ℚ) < den := by exact_mod_cast positive
  obtain ⟨low, high⟩ := abs_le.mp (isRounded_roundQuotient num positive).close
  generalize roundQuotient num den = whole at *
  have scaled : (num : ℚ) / den * den = num := div_mul_cancel₀ _ hden.ne'
  have below := mul_le_mul_of_nonneg_right low hden.le
  have above := mul_le_mul_of_nonneg_right high hden.le
  rw [sub_mul, scaled] at below above
  constructor
  · have : (2 * num : ℚ) ≤ 2 * (whole * den) + den := by linarith
    exact_mod_cast this
  · have : (2 * (whole * den) : ℚ) ≤ 2 * num + den := by linarith
    exact_mod_cast this

theorem unitsPerOne_mul_le : 10 ^ 16 * unitsPerOne ≤ Nat.pow 10 reach := by
  rw [unitsPerOne_eq]
  decide +kernel

theorem pow_reach_pos : 0 < Nat.pow 10 reach :=
  Nat.lt_of_lt_of_le (Nat.mul_pos (by decide) unitsPerOne_pos) unitsPerOne_mul_le

/-- The place of the seventeenth digit is within reach. -/
theorem exists_decimalPoint {magnitude : Nat} (positive : 0 < magnitude) :
    ∃ places : ℕ, decimalPoint magnitude = places + 17 - reach ∧
      Nat.pow 10 places * 10 ^ 16 * unitsPerOne ≤ units magnitude * Nat.pow 10 reach ∧
      units magnitude * Nat.pow 10 reach < Nat.pow 10 places * 10 ^ 17 * unitsPerOne := by
  have one : 1 ≤ units magnitude := units_strictMono positive
  have large : 10 ^ 16 ≤ units magnitude * Nat.pow 10 reach / unitsPerOne := by
    rw [Nat.le_div_iff_mul_le unitsPerOne_pos]
    exact unitsPerOne_mul_le.trans (Nat.le_mul_of_pos_left _ one)
  have nonzero : units magnitude * Nat.pow 10 reach / unitsPerOne ≠ 0 :=
    Nat.ne_of_gt (Nat.lt_of_lt_of_le (by decide) large)
  obtain ⟨length, hlength, least, greatest⟩ := exists_length_toDigits nonzero
  have enough : 16 ≤ length := by
    have := Nat.lt_of_le_of_lt large greatest
    exact Nat.le_of_lt_succ ((Nat.pow_lt_pow_iff_right (by decide)).mp this)
  obtain ⟨places, rfl⟩ := Nat.exists_eq_add_of_le' enough
  refine ⟨places, ?_, ?_, ?_⟩
  · rw [decimalPoint, hlength]
    push_cast
    ring
  · rw [Nat.pow_add] at least
    exact (Nat.le_div_iff_mul_le unitsPerOne_pos).mp least
  · rw [Nat.add_assoc, Nat.pow_add] at greatest
    exact (Nat.div_lt_iff_lt_mul unitsPerOne_pos).mp greatest

/-- A decimal reads back strictly between the midpoints to the neighbours of a double. -/
theorem readsBack_iff (before decimal : Nat) :
    readsBack (before + 1) decimal ↔
      (units before + units (before + 1)) * Nat.pow 10 reach < decimal ∧
        decimal < (units (before + 1) + units (before + 2)) * Nat.pow 10 reach := by
  simp only [readsBack, Nat.add_sub_cancel, Bool.and_eq_true, decide_eq_true_eq]

/-- Half a place does not lead out of the midpoints, if a double has 10¹⁶ places or more and is at
most 2⁵³ of the spacings on either side. -/
theorem between_midpoints {before below above scale step decimal : Nat} (positive : 0 < scale)
    (fine : step * 10 ^ 16 ≤ 2 * ((before + below) * scale))
    (low : 2 * (2 * (before + below) * scale) ≤ 2 * decimal + step)
    (high : 2 * decimal ≤ 2 * (2 * (before + below) * scale) + step)
    (nonzero : 0 < below) (wide : before + below ≤ 2 ^ 53 * below)
    (more : 0 < above) (wider : before + below ≤ 2 ^ 53 * above) :
    (before + (before + below)) * scale < decimal ∧
      decimal < (before + below + (before + below + above)) * scale := by
  have below_pos := Nat.mul_pos nonzero positive
  have above_pos := Nat.mul_pos more positive
  have wide := Nat.mul_le_mul_right scale wide
  have wider := Nat.mul_le_mul_right scale wider
  simp only [Nat.mul_assoc, Nat.add_mul, Nat.mul_add] at *
  omega

/-- Rounded to seventeen digits, a double reads back. -/
theorem isSome_onGrid? {magnitude : Nat} (positive : 0 < magnitude) :
    (onGrid? magnitude (decimalPoint magnitude - 17)).isSome := by
  obtain ⟨places, hpoint, fine, -⟩ := exists_decimalPoint positive
  obtain ⟨before, rfl⟩ := Nat.exists_eq_add_one.mpr positive
  have place : (decimalPoint (before + 1) - 17 + reach).toNat = places := by
    rw [hpoint]
    omega
  generalize hstep : Nat.pow 10 places * (2 * unitsPerOne) = step at *
  have step_pos : 0 < step := by
    rw [← hstep]
    exact Nat.mul_pos (Nat.pow_pos (by decide)) (Nat.mul_pos two_pos unitsPerOne_pos)
  have fine : step * 10 ^ 16 ≤ 2 * (units (before + 1) * Nat.pow 10 reach) := by
    rw [← hstep, Nat.mul_left_comm, Nat.mul_assoc, Nat.mul_right_comm]
    exact Nat.mul_le_mul_left 2 fine
  obtain ⟨low, high⟩ :=
    roundQuotient_bounds (2 * units (before + 1) * Nat.pow 10 reach) step_pos
  have scale_pos := pow_reach_pos
  -- Of the two decimals around the double the nearer one is tried first, and is enough.
  have reads : readsBack (before + 1)
      (roundQuotient (2 * units (before + 1) * Nat.pow 10 reach) step * step) := by
    rw [readsBack_iff]
    have wide := units_succ_le before
    have wider := (units_strictMono.monotone (Nat.le_succ _)).trans (units_succ_le (before + 1))
    rw [units_succ before] at wide wider fine low high ⊢
    rw [units_succ (before + 1), units_succ before]
    exact between_midpoints scale_pos fine low high (Nat.two_pow_pos _) wide (Nat.two_pow_pos _)
      wider
  simp only [onGrid?, place, hstep]
  exact List.find?_isSome.mpr ⟨_, List.mem_cons_self, reads⟩

/-- Nothing reads back from zero but zero itself. -/
theorem ne_zero_of_readsBack {magnitude count step : Nat} (h : readsBack magnitude (count * step)) :
    count ≠ 0 := by
  rintro rfl
  simp [readsBack] at h

theorem readsBack_of_onGrid? {magnitude count : Nat} {place : Int}
    (h : onGrid? magnitude place = some count) :
    readsBack magnitude (count * (Nat.pow 10 (place + reach).toNat * (2 * unitsPerOne))) := by
  simp only [onGrid?] at h
  have reads := List.find?_some h
  exact reads

/-- The shortest decimal is a whole number of places on the first of the grids on which one reads
back. -/
theorem exists_shortest {magnitude : Nat} (positive : 0 < magnitude) :
    ∃ i < 17, ∃ count : ℕ,
      shortest magnitude = .ofCount count (decimalPoint magnitude - (i + 1 : ℕ)) ∧
        onGrid? magnitude (decimalPoint magnitude - (i + 1 : ℕ)) = some count ∧
        ∀ j < i, onGrid? magnitude (decimalPoint magnitude - (j + 1 : ℕ)) = none := by
  have last := isSome_onGrid? positive
  have result : ∃ found, (List.range 17).findSome? (fun (i : Nat) =>
      (onGrid? magnitude (decimalPoint magnitude - (i + 1))).map fun count =>
        Decimal.ofCount count (decimalPoint magnitude - (i + 1))) = some found := by
    rw [← Option.isSome_iff_exists, List.findSome?_isSome_iff]
    refine ⟨16, List.mem_range.mpr (by decide), ?_⟩
    rw [Option.isSome_map]
    exact last
  obtain ⟨found, hfound⟩ := result
  obtain ⟨before, i, after, split, hcount, missed⟩ := List.findSome?_eq_some_iff.mp hfound
  obtain ⟨count, onGrid, rfl⟩ := Option.map_eq_some_iff.mp hcount
  have inRange : i ∈ List.range 17 := split ▸ List.mem_append_right _ List.mem_cons_self
  have sorted : (before ++ i :: after).Pairwise (· < ·) := split ▸ List.pairwise_lt_range
  refine ⟨i, List.mem_range.mp inRange, count, ?_, onGrid, fun j less => ?_⟩
  · rw [shortest, hfound, Option.getD_some]
    rfl
  · have mem : j ∈ before ++ i :: after :=
      split ▸ List.mem_range.mpr (less.trans (List.mem_range.mp inRange))
    rcases List.mem_append.mp mem with passed | later
    · exact Option.map_eq_none_iff.mp (missed j passed)
    · have least := List.pairwise_cons.mp (List.pairwise_append.mp sorted).2.1
      rcases List.mem_cons.mp later with rfl | later
      · exact absurd less (Nat.lt_irrefl _)
      · exact absurd (least.1 j later) (Nat.lt_asymm less)

/-- A number lies strictly between the midpoints from a double to its two neighbours, so it reads
back as the double. -/
structure Inside (before : Nat) (number : ℚ) : Prop where
  low : (units before + units (before + 1) : ℚ) < 2 * (number * unitsPerOne)
  high : 2 * (number * unitsPerOne) < (units (before + 1) + units (before + 2) : ℚ)

theorem readsBack_iff_inside {before count : Nat} {place : Int} (within : -(reach : ℤ) ≤ place) :
    readsBack (before + 1) (count * (Nat.pow 10 (place + reach).toNat * (2 * unitsPerOne))) ↔
      Inside before (count * 10 ^ place) := by
  obtain ⟨places, hplaces⟩ := Int.eq_ofNat_of_zero_le (show 0 ≤ place + reach by omega)
  have scale_pos : (0 : ℚ) < (Nat.pow 10 reach : ℕ) := by exact_mod_cast pow_reach_pos
  have scaled : 2 * (count * (10 : ℚ) ^ place * unitsPerOne) * (Nat.pow 10 reach : ℕ) =
      (count * (Nat.pow 10 (place + reach).toNat * (2 * unitsPerOne)) : ℕ) := by
    have exponent : (10 : ℚ) ^ place * (Nat.pow 10 reach : ℕ) = (Nat.pow 10 places : ℕ) := by
      rw [Nat.pow_eq, Nat.pow_eq, Nat.cast_pow, Nat.cast_pow, ← zpow_natCast, ← zpow_natCast,
        ← hplaces, zpow_add₀ (by norm_num)]
      rfl
    rw [hplaces, Int.toNat_natCast]
    push_cast [← exponent]
    ring
  rw [readsBack_iff]
  constructor
  · rintro ⟨low, high⟩
    constructor
    · rw [← mul_lt_mul_iff_of_pos_right scale_pos, scaled]
      exact_mod_cast low
    · rw [← mul_lt_mul_iff_of_pos_right scale_pos, scaled]
      exact_mod_cast high
  · rintro ⟨low, high⟩
    rw [← mul_lt_mul_iff_of_pos_right scale_pos, scaled] at low high
    exact ⟨by exact_mod_cast low, by exact_mod_cast high⟩

/-- All grids are within reach. -/
theorem le_place {magnitude i : Nat} (positive : 0 < magnitude) (inRange : i < 17) :
    -(reach : ℤ) ≤ decimalPoint magnitude - (i + 1 : ℕ) := by
  obtain ⟨places, hpoint, -⟩ := exists_decimalPoint positive
  omega

/-- In units, the shortest decimal lies strictly between the midpoints to the neighbours. -/
theorem shortest_between (before : Nat) : Inside before (shortest (before + 1)).rational := by
  have positive := Nat.succ_pos before
  obtain ⟨i, inRange, count, whole, onGrid, -⟩ := exists_shortest positive
  rw [whole, Decimal.rational_ofCount]
  exact (readsBack_iff_inside (le_place positive inRange)).mp (readsBack_of_onGrid? onGrid)

theorem reduced_shortest {magnitude : Nat} (positive : 0 < magnitude) :
    (shortest magnitude).Reduced := by
  obtain ⟨i, -, count, whole, onGrid, -⟩ := exists_shortest positive
  rw [whole]
  exact Decimal.reduced_ofCount (ne_zero_of_readsBack (readsBack_of_onGrid? onGrid)) _

end Double

end CssSyntax
