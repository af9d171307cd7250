import CssSyntax.Proofs.Midpoints

/-!
The shortest decimal is shortest. If any decimal with so many digits lies strictly between the
midpoints around a double, then one on the grid of as many digits does, and of the two around the
double on that grid at least one. So the search stops there at the latest.
-/

namespace CssSyntax

/-- A whole number of places has no more digits than places, but for the zeros at its end. -/
theorem Decimal.length_ofCount_le {count places : Nat} (nonzero : count ≠ 0) (positive : 0 < places)
    (few : count ≤ 10 ^ places) (place : Int) :
    (ofCount count place).digits.length ≤ places := by
  obtain ⟨zeros, -, value, -⟩ := exists_zeros count
  obtain ⟨-, first, last⟩ := reduced_ofCount nonzero place
  have digits_le : digitsValue (ofCount count place).digits ≤ 10 ^ places := by
    refine Nat.le_trans ?_ few
    conv_rhs => rw [value]
    exact Nat.le_mul_of_pos_right _ (Nat.pow_pos (by decide))
  generalize (ofCount count place).digits = digits at first last digits_le ⊢
  have short := (Nat.pow_le_pow_iff_right (by decide)).mp (first.trans digits_le)
  by_contra long
  -- One digit more than places would make it the power of ten.
  have length_eq : digits.length - 1 = places := by omega
  rw [length_eq] at first
  refine last ?_
  rw [Nat.le_antisymm digits_le first]
  exact dvd_pow_self 10 (Nat.ne_of_gt positive)

namespace Double

/-- A number is rounded to one of the whole numbers next to it. -/
theorem mem_candidates {num den count : Nat} :
    count ∈ [roundQuotient num den,
      if roundQuotient num den = num / den then roundQuotient num den + 1
      else roundQuotient num den - 1] ↔ count = num / den ∨ count = num / den + 1 := by
  have rounded : roundQuotient num den = num / den ∨ roundQuotient num den = num / den + 1 := by
    simp only [roundQuotient]
    split
    · exact .inl rfl
    · exact .inr rfl
  generalize roundQuotient num den = nearer at rounded
  rcases rounded with rfl | rfl
  · simp
  · simp [or_comm]

variable {magnitude before : Nat}

/-- What is found on a grid is next to the double. -/
theorem onGrid?_le {count : Nat} {place : Int} (found : onGrid? magnitude place = some count) :
    count ≤ 2 * units magnitude * Nat.pow 10 reach /
      (Nat.pow 10 (place + reach).toNat * (2 * unitsPerOne)) + 1 := by
  simp only [onGrid?] at found
  rcases mem_candidates.mp (List.mem_of_find?_eq_some found) with rfl | rfl
  · exact Nat.le_succ _
  · exact Nat.le_refl _

/-- Where a multiple lies in an interval around a value, one of the two next to the value does. -/
theorem neighbour_between {low value high step count : Nat} (positive : 0 < step)
    (below : low < value) (above : value < high)
    (between : low < count * step ∧ count * step < high) :
    (low < value / step * step ∧ value / step * step < high) ∨
      (low < (value / step + 1) * step ∧ (value / step + 1) * step < high) := by
  rcases Nat.lt_or_ge value (count * step) with higher | lower
  · right
    have next := Nat.lt_div_mul_add positive (a := value)
    have further : (value / step + 1) * step ≤ count * step :=
      Nat.mul_le_mul_right step ((Nat.div_lt_iff_lt_mul positive).mpr higher)
    rw [Nat.add_mul, Nat.one_mul] at further ⊢
    omega
  · left
    have within := Nat.div_mul_le_self value step
    have further := Nat.mul_le_mul_right step ((Nat.le_div_iff_mul_le positive).mpr lower)
    omega

/-- If any decimal of a grid reads back, one of the two around the double does. -/
theorem isSome_onGrid?_of_readsBack {count : Nat} {place : Int}
    (reads : readsBack (before + 1)
      (count * (Nat.pow 10 (place + reach).toNat * (2 * unitsPerOne)))) :
    (onGrid? (before + 1) place).isSome := by
  have scale_pos := pow_reach_pos
  have step_pos : 0 < Nat.pow 10 (place + reach).toNat * (2 * unitsPerOne) :=
    Nat.mul_pos (Nat.pow_pos (by decide)) (Nat.mul_pos two_pos unitsPerOne_pos)
  have below : units before < units (before + 1) := units_strictMono (Nat.lt_succ_self before)
  have above : units (before + 1) < units (before + 2) :=
    units_strictMono (Nat.lt_succ_self (before + 1))
  have low : (units before + units (before + 1)) * Nat.pow 10 reach <
      2 * units (before + 1) * Nat.pow 10 reach :=
    Nat.mul_lt_mul_of_pos_right (by omega) scale_pos
  have high : 2 * units (before + 1) * Nat.pow 10 reach <
      (units (before + 1) + units (before + 2)) * Nat.pow 10 reach :=
    Nat.mul_lt_mul_of_pos_right (by omega) scale_pos
  simp only [onGrid?]
  rw [List.find?_isSome]
  rcases neighbour_between step_pos low high ((readsBack_iff before _).mp reads) with lower | higher
  · exact ⟨_, mem_candidates.mpr (.inl rfl), (readsBack_iff before _).mpr lower⟩
  · exact ⟨_, mem_candidates.mpr (.inr rfl), (readsBack_iff before _).mpr higher⟩

/-- The power of ten that comes before the first digit of a double. -/
theorem pow_decimalPoint_le (positive : 0 < magnitude) :
    (10 : ℚ) ^ (decimalPoint magnitude - 1) ≤ units magnitude / unitsPerOne := by
  have one := cast_unitsPerOne_pos
  obtain ⟨places, hpoint, least, -⟩ := exists_decimalPoint positive
  have scale_pos : (0 : ℚ) < (Nat.pow 10 reach : ℕ) := by exact_mod_cast pow_reach_pos
  have exponent : (10 : ℚ) ^ (decimalPoint magnitude - 1) * (Nat.pow 10 reach : ℕ) =
      (Nat.pow 10 places * 10 ^ 16 : ℕ) := by
    rw [Nat.pow_eq, Nat.pow_eq, ← Nat.pow_add, Nat.cast_pow, Nat.cast_pow, ← zpow_natCast,
      ← zpow_natCast, Nat.cast_ofNat, ← zpow_add₀ (by norm_num), hpoint]
    congr 1
    push_cast
    ring
  rw [le_div_iff₀ one, ← mul_le_mul_iff_of_pos_right scale_pos, mul_right_comm, exponent]
  exact_mod_cast least

/-- A decimal with so many digits is on the grid of as many digits or finer than it, and then a
power of ten is nearer to the double. -/
theorem exists_inside_onGrid {digits places : Nat} {exponent : Int} (few : digits < 10 ^ places)
    (positive : 0 < places) (inside : Inside before (digits * 10 ^ exponent)) :
    ∃ count : ℕ, Inside before (count * 10 ^ (decimalPoint (before + 1) - places)) := by
  have ten : (10 : ℚ) ≠ 0 := by norm_num
  rcases le_or_gt (decimalPoint (before + 1) - places) exponent with coarse | fine
  · obtain ⟨zeros, rfl⟩ := Int.le.dest coarse
    refine ⟨digits * 10 ^ zeros, ?_⟩
    rw [zpow_add₀ ten, zpow_natCast] at inside
    push_cast
    rwa [mul_assoc, mul_comm ((10 : ℚ) ^ zeros)]
  · obtain ⟨more, rfl⟩ := Nat.exists_eq_add_one.mpr positive
    have power : ((10 ^ more : ℕ) : ℚ) * 10 ^ (decimalPoint (before + 1) - (more + 1 : ℕ)) =
        10 ^ (decimalPoint (before + 1) - 1) := by
      rw [Nat.cast_pow, Nat.cast_ofNat, ← zpow_natCast, ← zpow_add₀ ten]
      congr 1
      push_cast
      ring
    have below : digits * (10 : ℚ) ^ exponent ≤ 10 ^ (decimalPoint (before + 1) - 1) := by
      calc digits * (10 : ℚ) ^ exponent
          ≤ 10 ^ (more + 1) * 10 ^ exponent :=
            mul_le_mul_of_nonneg_right (by exact_mod_cast few.le) (zpow_nonneg (by norm_num) _)
        _ = 10 ^ (exponent + (more + 1 : ℕ)) := by rw [zpow_add₀ ten, zpow_natCast, mul_comm]
        _ ≤ 10 ^ (decimalPoint (before + 1) - 1) := zpow_le_zpow_right₀ (by norm_num) (by omega)
    refine ⟨10 ^ more, ?_⟩
    rw [power]
    exact inside.convex (inside_self before) below (pow_decimalPoint_le (Nat.succ_pos before))

/-- The digits found on a grid are no more than those before its last place. -/
theorem length_onGrid?_le {i count : Nat} (inRange : i < 17) (positive : 0 < magnitude)
    (found : onGrid? magnitude (decimalPoint magnitude - (i + 1 : ℕ)) = some count) :
    (Decimal.ofCount count (decimalPoint magnitude - (i + 1 : ℕ))).digits.length ≤ i + 1 := by
  obtain ⟨places, hpoint, -, greatest⟩ := exists_decimalPoint positive
  obtain ⟨more, hmore⟩ := Nat.exists_eq_add_of_lt inRange
  have place : (decimalPoint magnitude - (i + 1 : ℕ) + reach).toNat = places + more := by omega
  have step_pos : 0 < Nat.pow 10 (places + more) * (2 * unitsPerOne) :=
    Nat.mul_pos (Nat.pow_pos (by decide)) (Nat.mul_pos two_pos unitsPerOne_pos)
  have few := onGrid?_le found
  rw [place] at few
  have below : 2 * units magnitude * Nat.pow 10 reach <
      10 ^ (i + 1) * (Nat.pow 10 (places + more) * (2 * unitsPerOne)) := by
    calc 2 * units magnitude * Nat.pow 10 reach
        = 2 * (units magnitude * Nat.pow 10 reach) := Nat.mul_assoc _ _ _
      _ < 2 * (Nat.pow 10 places * 10 ^ 17 * unitsPerOne) :=
          Nat.mul_lt_mul_of_pos_left greatest two_pos
      _ = 10 ^ (i + 1) * (Nat.pow 10 (places + more) * (2 * unitsPerOne)) := by
          rw [hmore, Nat.pow_eq, Nat.pow_eq]
          ring
  exact Decimal.length_ofCount_le (ne_zero_of_readsBack (readsBack_of_onGrid? found))
    (Nat.succ_pos i) (few.trans ((Nat.div_lt_iff_lt_mul step_pos).mpr below)) _

/-- No decimal with fewer digits than the shortest one lies between the midpoints around a
double. -/
theorem length_shortest_le {digits places : Nat} {exponent : Int} (few : digits < 10 ^ places)
    (positive : 0 < places) (inRange : places ≤ 17)
    (inside : Inside before (digits * 10 ^ exponent)) :
    (shortest (before + 1)).digits.length ≤ places := by
  obtain ⟨last, rfl⟩ := Nat.exists_eq_add_one.mpr positive
  obtain ⟨other, onGrid⟩ := exists_inside_onGrid few positive inside
  have reads := (readsBack_iff_inside (le_place (Nat.succ_pos before) inRange)).mpr onGrid
  have hit := isSome_onGrid?_of_readsBack reads
  obtain ⟨i, within, count, whole, found, missed⟩ := exists_shortest (Nat.succ_pos before)
  have first : i ≤ last := by
    by_contra later
    rw [missed last (Nat.not_le.mp later)] at hit
    cases hit
  rw [whole]
  exact (length_onGrid?_le within (Nat.succ_pos before) found).trans (Nat.succ_le_succ first)

end Double

end CssSyntax
