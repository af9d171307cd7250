import CssSyntax.Proofs.Shortest

/-!
The midpoints between doubles. A number strictly between the midpoints to the neighbours of a double
is nearest to that double, a number nearest to it is not beyond them, and no number is nearest to
two doubles: on a midpoint, only one of the two around it is even.
-/

namespace CssSyntax

namespace Double

/-- What lies between two numbers next to a double lies there as well. -/
theorem Inside.convex {before : Nat} {first last number : ℚ} (h : Inside before first)
    (h' : Inside before last) (low : first ≤ number) (high : number ≤ last) :
    Inside before number := by
  have one : (0 : ℚ) ≤ unitsPerOne := Nat.cast_nonneg _
  have first_le := mul_le_mul_of_nonneg_right low one
  have le_last := mul_le_mul_of_nonneg_right high one
  exact ⟨by linarith [h.low], by linarith [h'.high]⟩

/-- A double lies between the midpoints to its neighbours. -/
theorem inside_self (before : Nat) : Inside before (units (before + 1) / unitsPerOne) := by
  have one := cast_unitsPerOne_pos.ne'
  have below := cast_units_lt (Nat.lt_add_one before)
  have above : (units (before + 1) : ℚ) < units (before + 2) := cast_units_lt (Nat.lt_add_one _)
  constructor
  · rw [div_mul_cancel₀ _ one]
    linarith
  · rw [div_mul_cancel₀ _ one]
    linarith

/-- Between the midpoints to its neighbours, a double is closer than any other. -/
theorem Inside.closest {before last : Nat} {number : ℚ} (h : Inside before number)
    (le_last : before + 1 ≤ last) : Closest last (before + 1) (number * unitsPerOne) := by
  obtain ⟨low, high⟩ := h
  generalize number * unitsPerOne = quotient at low high ⊢
  have nearer {other : Nat} (different : other ≠ before + 1) :
      |(units (before + 1) : ℚ) - quotient| < |(units other : ℚ) - quotient| := by
    rcases Nat.lt_or_gt_of_ne different with less | greater
    · have below := cast_units_le (Nat.le_of_lt_succ less)
      have rising := cast_units_lt (Nat.lt_add_one before)
      rw [abs_sub_comm (units other : ℚ), abs_of_nonneg (by linarith : 0 ≤ quotient - units other),
        abs_lt]
      constructor <;> linarith
    · have above : (units (before + 2) : ℚ) ≤ units other := cast_units_le greater
      have rising : (units (before + 1) : ℚ) < units (before + 2) :=
        cast_units_lt (Nat.lt_add_one _)
      rw [abs_of_nonneg (by linarith : 0 ≤ (units other : ℚ) - quotient), abs_lt]
      constructor <;> linarith
  refine ⟨le_last, fun other _ => ?_, fun other _ different tie => ?_⟩
  · by_cases same : other = before + 1
    · rw [same]
    · exact (nearer same).le
  · exact absurd tie (nearer different).ne

/-- What a double is the closest to is not beyond the midpoints to its neighbours. -/
theorem Closest.midpoints {before last : Nat} {quotient : ℚ}
    (h : Closest last (before + 1) quotient) (more : before + 2 ≤ last) :
    (units before + units (before + 1) : ℚ) ≤ 2 * quotient ∧
      2 * quotient ≤ (units (before + 1) + units (before + 2) : ℚ) := by
  have below := cast_units_lt (Nat.lt_add_one before)
  have above : (units (before + 1) : ℚ) < units (before + 2) := cast_units_lt (Nat.lt_add_one _)
  have first := h.closest before (by omega)
  have second := h.closest (before + 2) more
  constructor
  · by_contra less
    rw [not_le] at less
    rw [abs_of_nonneg (by linarith : 0 ≤ (units (before + 1) : ℚ) - quotient), le_abs] at first
    rcases first with first | first <;> linarith
  · by_contra greater
    rw [not_le] at greater
    rw [abs_sub_comm, abs_of_nonneg (by linarith : 0 ≤ quotient - (units (before + 1) : ℚ)),
      le_abs] at second
    rcases second with second | second <;> linarith

theorem Closest.not_lt {last first second : Nat} {quotient : ℚ} (h : Closest last first quotient)
    (h' : Closest last second quotient) : ¬first < second := by
  intro less
  have tie : |(units first : ℚ) - quotient| = |(units second : ℚ) - quotient| :=
    le_antisymm (h.closest second h'.le_last) (h'.closest first h.le_last)
  have evenFirst := h.even second h'.le_last (Nat.ne_of_gt less) tie
  have evenSecond := h'.even first h.le_last (Nat.ne_of_lt less) tie.symm
  -- Two even doubles have another one between them, which is closer than both.
  have next : first + 1 < second := by omega
  have low := cast_units_lt (Nat.lt_add_one first)
  have high := cast_units_lt next
  have middle : (units first + units second : ℚ) = 2 * quotient := by
    rcases abs_eq_abs.mp tie with same | opposite <;> linarith
  have between := h.closest (first + 1) (next.le.trans h'.le_last)
  rw [abs_sub_comm, abs_of_nonneg (by linarith : 0 ≤ quotient - (units first : ℚ)),
    le_abs] at between
  rcases between with between | between <;> linarith

/-- Only one double is nearest to a number. -/
theorem Closest.unique {last first second : Nat} {quotient : ℚ} (h : Closest last first quotient)
    (h' : Closest last second quotient) : first = second :=
  Nat.le_antisymm (Nat.not_lt.mp (h'.not_lt h)) (Nat.not_lt.mp (h.not_lt h'))

/-- Doubles of one sign that stand for one number are the same. -/
theorem eq_of_rational_eq {x y : Double} (sameSign : x.negative = y.negative)
    (same : x.rational = y.rational) : x = y := by
  have one := cast_unitsPerOne_pos.ne'
  have absolutes := congrArg (|·|) same
  simp only [rational, abs_sign_mul, abs_of_nonneg (units_div_nonneg _)] at absolutes
  have units_eq : units x.magnitude = units y.magnitude := by
    exact_mod_cast (div_left_inj' one).mp absolutes
  have magnitudes := units_strictMono.injective units_eq
  cases x
  cases y
  simp_all

/-- The nearest double to a number with its sign has the magnitude closest to it without the
sign. -/
theorem IsNearest.closest_magnitude {x : Double} {absolute : ℚ}
    (h : x.IsNearest (sign x.negative * absolute)) :
    Closest infinite x.magnitude (absolute * unitsPerOne) := by
  have one := cast_unitsPerOne_pos
  have last : infinite < 0x8000000000000000 := by decide
  -- All magnitudes are those of doubles with the sign of the number.
  have signed {magnitude : Nat} (within : magnitude ≤ infinite) : ∃ other : Double,
      other.isNaN = false ∧ other.negative = x.negative ∧ other.magnitude = magnitude :=
    ⟨⟨x.negative, magnitude, within.trans_lt last⟩, (isNaN_eq_false_iff _).mpr within, rfl, rfl⟩
  have distance {other : Double} (sameSign : other.negative = x.negative) :
      |other.rational - sign x.negative * absolute| =
        |(units other.magnitude : ℚ) - absolute * unitsPerOne| / unitsPerOne := by
    rw [← abs_units_sub, rational, sameSign, ← mul_sub, abs_sign_mul]
  refine ⟨(isNaN_eq_false_iff x).mp h.notNaN, fun magnitude within => ?_,
    fun magnitude within different tie => ?_⟩
  · obtain ⟨other, number, sameSign, rfl⟩ := signed within
    have closer := h.closest other number
    rw [distance rfl, distance sameSign] at closer
    exact (div_le_div_iff_of_pos_right one).mp closer
  · obtain ⟨other, number, sameSign, rfl⟩ := signed within
    have apart : other.rational ≠ x.rational := fun same =>
      different (congrArg Double.magnitude (eq_of_rational_eq sameSign same))
    refine h.even other number apart ?_
    rw [distance rfl, distance sameSign, tie]

end Double

end CssSyntax
