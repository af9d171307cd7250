import CssSyntax.Double
import Mathlib.Algebra.Order.Field.Power
import Mathlib.Algebra.Order.Ring.Abs
import Mathlib.Data.Rat.Cast.Order
import Mathlib.Order.Monotone.Basic
import Mathlib.Tactic.FieldSimp
import Mathlib.Tactic.Linarith
import Mathlib.Tactic.NormNum
import Mathlib.Tactic.Positivity
import Mathlib.Tactic.Ring

/-!
The nearest double. Its neighbours lie a power of two apart, so rounding to the spacing around a
number gives a double that no other is closer to; and halves go to the double that is even.
-/

namespace CssSyntax

namespace Double

theorem leastNormal_eq : leastNormal = 2 ^ 52 := rfl

theorem unitsPerOne_eq : unitsPerOne = 2 ^ 1074 := by
  have power (n : Nat) : 1 <<< n = 2 ^ n := Nat.one_shiftLeft n
  exact power 1074

theorem unitsPerOne_pos : 0 < unitsPerOne := by
  rw [unitsPerOne_eq]
  positivity

theorem cast_unitsPerOne_pos : (0 : ℚ) < unitsPerOne := by exact_mod_cast unitsPerOne_pos

theorem units_div_nonneg (magnitude : Nat) : (0 : ℚ) ≤ units magnitude / unitsPerOne :=
  div_nonneg (Nat.cast_nonneg _) (Nat.cast_nonneg _)

/-- The units of a magnitude given by its spacing and the whole number of spacings in it. -/
theorem units_scaled {spacing count : Nat} (least : spacing = 0 ∨ leastNormal ≤ count)
    (greatest : count ≤ 2 * leastNormal) :
    units (spacing * leastNormal + count) = count * 2 ^ spacing := by
  have positive : 0 < leastNormal := by decide
  rcases Nat.lt_or_ge count leastNormal with small | large
  · obtain rfl : spacing = 0 := least.resolve_right (Nat.not_le.mpr small)
    rw [Nat.zero_mul, Nat.zero_add, Nat.pow_zero, Nat.mul_one]
    exact units_of_lt (by omega)
  · obtain ⟨fraction, rfl⟩ := Nat.exists_eq_add_of_le large
    have whole : spacing * leastNormal + (leastNormal + fraction) =
        leastNormal * (spacing + 1) + fraction := by ring
    have normal : ¬spacing * leastNormal + (leastNormal + fraction) < leastNormal := by omega
    rw [units, if_neg normal, whole, Nat.shiftLeft_eq, Nat.mul_add_mod,
      Nat.mul_add_div positive]
    rcases Nat.lt_or_ge fraction leastNormal with inside | last
    · rw [Nat.mod_eq_of_lt inside, Nat.div_eq_of_lt inside, Nat.add_zero, Nat.add_sub_cancel,
        Nat.add_comm fraction]
    · obtain rfl : fraction = leastNormal := by omega
      rw [Nat.mod_self, Nat.div_self positive, Nat.add_sub_cancel, Nat.pow_succ]
      ring

/-- Every magnitude has a spacing, and is a whole number of them. -/
theorem exists_scaled (magnitude : Nat) :
    ∃ count, magnitude = (magnitude / leastNormal - 1) * leastNormal + count ∧
      (magnitude / leastNormal - 1 = 0 ∨ leastNormal ≤ count) ∧ count < 2 * leastNormal := by
  have split := Nat.div_add_mod' magnitude leastNormal
  have below : magnitude % leastNormal < leastNormal := Nat.mod_lt _ (by decide)
  rcases Nat.eq_zero_or_pos (magnitude / leastNormal) with subnormal | normal
  · rw [subnormal] at split ⊢
    exact ⟨magnitude, by omega, .inl rfl, by omega⟩
  · obtain ⟨exponent, hexponent⟩ := Nat.exists_eq_add_of_lt normal
    rw [Nat.zero_add] at hexponent
    rw [hexponent, Nat.add_mul] at split
    rw [hexponent, Nat.add_sub_cancel]
    exact ⟨leastNormal + magnitude % leastNormal, by omega, .inr (by omega), by omega⟩

/-- From one double to the next is its spacing. -/
theorem units_succ (magnitude : Nat) :
    units (magnitude + 1) = units magnitude + 2 ^ (magnitude / leastNormal - 1) := by
  obtain ⟨count, split, least, greatest⟩ := exists_scaled magnitude
  generalize magnitude / leastNormal - 1 = spacing at *
  rw [split, Nat.add_assoc, units_scaled (least.imp_right Nat.le_succ_of_le) greatest,
    units_scaled least (Nat.le_of_lt greatest), Nat.succ_mul]

/-- A double is at most 2⁵³ of the spacings below it. -/
theorem units_succ_le (magnitude : Nat) :
    units (magnitude + 1) ≤ 2 ^ 53 * 2 ^ (magnitude / leastNormal - 1) := by
  obtain ⟨count, split, least, greatest⟩ := exists_scaled magnitude
  rw [leastNormal_eq, ← Nat.pow_succ'] at greatest
  rw [units_succ]
  generalize magnitude / leastNormal - 1 = spacing at *
  rw [split, units_scaled least (by rw [leastNormal_eq]; omega), ← Nat.succ_mul]
  exact Nat.mul_le_mul_right _ greatest

@[simp] theorem units_zero : units 0 = 0 := rfl

theorem units_strictMono : StrictMono units := by
  apply strictMono_nat_of_lt_succ
  intro magnitude
  rw [units_succ]
  exact Nat.lt_add_of_pos_right (Nat.two_pow_pos _)

theorem cast_units_lt {first second : Nat} (less : first < second) :
    (units first : ℚ) < units second := by exact_mod_cast units_strictMono less

theorem cast_units_le {first second : Nat} (le : first ≤ second) :
    (units first : ℚ) ≤ units second := by exact_mod_cast units_strictMono.monotone le

/-- Doubles from a power of two on lie on the grid of the spacing there. -/
theorem pow_dvd_units {magnitude spacing : Nat} (h : (spacing + 1) * leastNormal ≤ magnitude) :
    2 ^ spacing ∣ units magnitude := by
  obtain ⟨count, split, least, greatest⟩ := exists_scaled magnitude
  have wider : spacing + 1 ≤ magnitude / leastNormal :=
    (Nat.le_div_iff_mul_le (by decide)).mpr h
  rw [split, units_scaled least (Nat.le_of_lt greatest)]
  exact Dvd.dvd.mul_left (Nat.pow_dvd_pow 2 (Nat.le_sub_of_add_le wider)) count

/-- A whole number closest to a quotient, which is even where another one is as close. -/
structure IsRounded (whole : Nat) (quotient : ℚ) : Prop where
  close : |(whole : ℚ) - quotient| ≤ 1 / 2
  even : |(whole : ℚ) - quotient| = 1 / 2 → whole % 2 = 0

theorem isRounded_roundQuotient (num : Nat) {den : Nat} (positive : 0 < den) :
    IsRounded (roundQuotient num den) (num / den) := by
  have split : (num : ℚ) = den * (num / den : ℕ) + (num % den : ℕ) := by
    exact_mod_cast (Nat.div_add_mod num den).symm
  have below : num % den < den := Nat.mod_lt _ positive
  have hden : (0 : ℚ) < den := by exact_mod_cast positive
  generalize hwhole : num / den = whole at split
  generalize hrest : num % den = rest at split below
  -- The quotient is `whole`, and a part of one that is compared with a half.
  have quotient : (num : ℚ) / den = whole + rest / den := by
    rw [split]
    field_simp
  have part_nonneg : (0 : ℚ) ≤ rest / den := by positivity
  have part_lt : (rest : ℚ) / den < 1 := by
    rw [div_lt_one hden]
    exact_mod_cast below
  have less : (rest : ℚ) / den < 1 / 2 ↔ 2 * rest < den := by
    rw [div_lt_div_iff₀ hden two_pos]
    constructor <;> intro h
    · have : ((2 * rest : ℕ) : ℚ) < den := by push_cast; linarith
      exact_mod_cast this
    · have : ((2 * rest : ℕ) : ℚ) < den := by exact_mod_cast h
      push_cast at this
      linarith
  have same : (rest : ℚ) / den = 1 / 2 ↔ 2 * rest = den := by
    rw [div_eq_div_iff hden.ne' two_ne_zero]
    constructor <;> intro h
    · have : ((2 * rest : ℕ) : ℚ) = den := by push_cast; linarith
      exact_mod_cast this
    · have : ((2 * rest : ℕ) : ℚ) = den := by exact_mod_cast h
      push_cast at this
      linarith
  rw [quotient, roundQuotient, hwhole, hrest]
  by_cases down : 2 * rest < den ∨ (2 * rest = den ∧ whole % 2 = 0)
  · have half : (rest : ℚ) / den ≤ 1 / 2 := by
      rcases down with down | tie
      · exact (less.mpr down).le
      · exact (same.mpr tie.1).le
    have distance : |(whole : ℚ) - (whole + rest / den)| = rest / den := by
      rw [sub_add_cancel_left, abs_neg, abs_of_nonneg part_nonneg]
    rw [if_pos down]
    refine ⟨by rwa [distance], fun tie => ?_⟩
    rw [distance] at tie
    rcases down with down | ⟨-, even⟩
    · exact absurd (same.mp tie) (Nat.ne_of_lt down)
    · exact even
  · obtain ⟨notLess, notTie⟩ := not_or.mp down
    have half : 1 / 2 ≤ (rest : ℚ) / den := not_lt.mp (mt less.mp notLess)
    have distance : |((whole + 1 : ℕ) : ℚ) - (whole + rest / den)| = 1 - rest / den := by
      push_cast
      rw [add_sub_add_left_eq_sub, abs_of_nonneg (by linarith)]
    rw [if_neg down]
    refine ⟨by rw [distance]; linarith, fun tie => ?_⟩
    rw [distance] at tie
    have half : 2 * rest = den := same.mp (by linarith)
    have odd : whole % 2 ≠ 0 := fun even => notTie ⟨half, even⟩
    omega

/-- No whole number is closer to a quotient than the one it is rounded to. -/
theorem IsRounded.le {whole : Nat} {quotient : ℚ} (h : IsRounded whole quotient) (other : Nat) :
    |(whole : ℚ) - quotient| ≤ |(other : ℚ) - quotient| ∧
      (other ≠ whole → |(whole : ℚ) - quotient| = |(other : ℚ) - quotient| → whole % 2 = 0) := by
  by_cases same : other = whole
  · exact ⟨by rw [same], fun different => absurd same different⟩
  · have apart : (1 : ℚ) ≤ |(other : ℚ) - whole| := by
      have integers : (other : ℤ) - whole ≠ 0 := by omega
      have := Int.one_le_abs integers
      exact_mod_cast this
    have triangle : |(other : ℚ) - whole| ≤
        |(other : ℚ) - quotient| + |(whole : ℚ) - quotient| := by
      rw [abs_sub_comm (whole : ℚ) quotient]
      exact abs_sub_le _ _ _
    have close := h.close
    refine ⟨by linarith, fun _ tie => h.even ?_⟩
    linarith

/-- Of the magnitudes up to `last`, one whose units are the closest to a number of units. It is even
if another one is as close. -/
structure Closest (last magnitude : Nat) (quotient : ℚ) : Prop where
  le_last : magnitude ≤ last
  closest : ∀ other ≤ last, |(units magnitude : ℚ) - quotient| ≤ |(units other : ℚ) - quotient|
  even : ∀ other ≤ last, other ≠ magnitude →
    |(units magnitude : ℚ) - quotient| = |(units other : ℚ) - quotient| → magnitude % 2 = 0

/-- Where doubles lie further apart than units, the number is at least the power of two from which
on they do; so rounding it to their spacing there is rounding it to a double. -/
theorem closest_scaled {spacing count last : Nat} {quotient : ℚ}
    (rounded : IsRounded count (quotient / 2 ^ spacing))
    (least : spacing = 0 ∨ leastNormal ≤ count) (greatest : count ≤ 2 * leastNormal)
    (large : spacing = 0 ∨ (leastNormal * 2 ^ spacing : ℕ) ≤ quotient)
    (le_last : spacing * leastNormal + count ≤ last) :
    Closest last (spacing * leastNormal + count) quotient := by
  have step : (0 : ℚ) < 2 ^ spacing := by positivity
  have scale (whole : Nat) : |((whole * 2 ^ spacing : ℕ) : ℚ) - quotient| =
      |(whole : ℚ) - quotient / 2 ^ spacing| * 2 ^ spacing := by
    rw [← abs_of_pos step, ← abs_mul, abs_of_pos step, sub_mul, div_mul_cancel₀ _ step.ne']
    push_cast
    rfl
  have units_eq := units_scaled least greatest
  have onGrid (whole : Nat) : |(units (spacing * leastNormal + count) : ℚ) - quotient| ≤
      |((whole * 2 ^ spacing : ℕ) : ℚ) - quotient| := by
    rw [units_eq, scale, scale]
    exact mul_le_mul_of_nonneg_right (rounded.le whole).1 step.le
  -- A double is either on the grid of the spacing or below the power of two where it begins.
  have cases (other : Nat) : (∃ whole, units other = whole * 2 ^ spacing) ∨
      spacing ≠ 0 ∧ units other < leastNormal * 2 ^ spacing := by
    rcases Nat.eq_zero_or_pos spacing with rfl | positive
    · exact .inl ⟨units other, by rw [Nat.pow_zero, Nat.mul_one]⟩
    · rcases Nat.lt_or_ge other ((spacing + 1) * leastNormal) with below | above
      · refine .inr ⟨Nat.ne_of_gt positive, ?_⟩
        have start : units (spacing * leastNormal + leastNormal) = leastNormal * 2 ^ spacing :=
          units_scaled (.inr (Nat.le_refl _)) (by omega)
        rw [← start]
        exact units_strictMono (by rwa [Nat.add_mul, Nat.one_mul] at below)
      · obtain ⟨whole, hwhole⟩ := pow_dvd_units above
        exact .inl ⟨whole, by rw [hwhole, Nat.mul_comm]⟩
  have further {other : Nat} (coarse : spacing ≠ 0)
      (below : units other < leastNormal * 2 ^ spacing) :
      |(units (spacing * leastNormal + count) : ℚ) - quotient| <
        |(units other : ℚ) - quotient| := by
    have start : ((leastNormal * 2 ^ spacing : ℕ) : ℚ) ≤ quotient := large.resolve_left coarse
    have before : (units other : ℚ) < (leastNormal * 2 ^ spacing : ℕ) := by exact_mod_cast below
    refine lt_of_le_of_lt (onGrid leastNormal) ?_
    rw [abs_sub_comm, abs_of_nonneg (by linarith), abs_sub_comm, abs_of_nonneg (by linarith)]
    linarith
  constructor
  · exact le_last
  · intro other _
    rcases cases other with ⟨whole, grid⟩ | ⟨coarse, below⟩
    · rw [grid]
      exact onGrid whole
    · exact (further coarse below).le
  · intro other _ different tie
    have even : count % 2 = 0 := by
      rcases cases other with ⟨whole, grid⟩ | ⟨coarse, below⟩
      · rw [units_eq, grid, scale, scale] at tie
        refine (rounded.le whole).2 ?_ (mul_right_cancel₀ step.ne' tie)
        rintro rfl
        exact different (units_strictMono.injective (grid.trans units_eq.symm))
      · exact absurd tie (further coarse below).ne
    have : leastNormal % 2 = 0 := rfl
    rw [Nat.add_mod, Nat.mul_mod, this, even, Nat.mul_zero]

/-- Beyond the last magnitude, the last one is the closest. -/
theorem closest_last {last : Nat} {quotient : ℚ} (beyond : units last ≤ quotient) :
    Closest last last quotient := by
  have below {other : Nat} (within : other ≤ last) : (units other : ℚ) ≤ units last :=
    cast_units_le within
  have distance {other : Nat} (within : other ≤ last) :
      |(units other : ℚ) - quotient| = quotient - units other := by
    have := below within
    rw [abs_sub_comm, abs_of_nonneg (by linarith)]
  refine ⟨Nat.le_refl _, fun other within => ?_, fun other within different tie => ?_⟩
  · have := below within
    rw [distance (Nat.le_refl _), distance within]
    linarith
  · rw [distance (Nat.le_refl _), distance within, sub_right_inj] at tie
    have same : units last = units other := by exact_mod_cast tie
    exact absurd (units_strictMono.injective same).symm different

/-- Below half a unit, zero is the closest. -/
theorem closest_zero {last : Nat} {quotient : ℚ} (nonneg : 0 ≤ quotient)
    (small : 2 * quotient < 1) :
    Closest last 0 quotient := by
  have further {other : Nat} (nonzero : other ≠ 0) :
      |(units 0 : ℚ) - quotient| < |(units other : ℚ) - quotient| := by
    have : (1 : ℚ) ≤ units other := by
      exact_mod_cast units_strictMono (Nat.pos_of_ne_zero nonzero)
    rw [units_zero, Nat.cast_zero, zero_sub, abs_neg, abs_of_nonneg nonneg,
      abs_of_nonneg (by linarith)]
    linarith
  refine ⟨Nat.zero_le _, fun other _ => ?_, fun other _ different tie => ?_⟩
  · rcases Nat.eq_zero_or_pos other with rfl | positive
    · exact le_refl _
    · exact (further (Nat.ne_of_gt positive)).le
  · exact absurd tie (further different).ne

theorem Closest.min {last magnitude cut : Nat} {quotient : ℚ} (h : Closest last magnitude quotient)
    (le : cut ≤ last) : Closest cut (min magnitude cut) quotient := by
  rcases Nat.lt_or_ge cut magnitude with beyond | within
  · rw [Nat.min_eq_right beyond.le]
    apply closest_last
    have less : (units cut : ℚ) < units magnitude := cast_units_lt beyond
    have closer := h.closest cut le
    by_contra below
    rw [not_le] at below
    rw [abs_of_nonneg (by linarith), abs_of_nonneg (by linarith)] at closer
    linarith
  · rw [Nat.min_eq_left within]
    exact ⟨within, fun other hother => h.closest other (hother.trans le),
      fun other hother => h.even other (hother.trans le)⟩

theorem IsRounded.le_of_le {whole bound : Nat} {quotient : ℚ} (h : IsRounded whole quotient)
    (le : quotient ≤ bound) : whole ≤ bound := by
  have close := (abs_le.mp h.close).2
  have : (whole : ℚ) < (bound + 1 : ℕ) := by
    push_cast
    linarith
  exact Nat.le_of_lt_succ (by exact_mod_cast this)

theorem IsRounded.le_of_ge {whole bound : Nat} {quotient : ℚ} (h : IsRounded whole quotient)
    (ge : bound ≤ quotient) : bound ≤ whole := by
  have close := (abs_le.mp h.close).1
  have : (bound : ℚ) < (whole + 1 : ℕ) := by
    push_cast
    linarith
  exact Nat.le_of_lt_succ (by exact_mod_cast this)

/-- The spacing is chosen so that a quotient has at most 53 binary digits in front of it, and no
fewer unless it is a single unit. -/
theorem closest_nearest (num : Nat) {den : Nat} (positive : 0 < den) :
    Closest infinite (nearest num den) (num / den) := by
  have split : den * (num / den) ≤ num ∧ num < den * (num / den + 1) :=
    ⟨Nat.mul_div_le num den, Nat.lt_mul_div_succ num positive⟩
  rw [nearest]
  generalize num / den = whole at split ⊢
  have hden : (0 : ℚ) < den := by exact_mod_cast positive
  have lower {bound : Nat} (h : bound ≤ whole) : (bound : ℚ) ≤ num / den := by
    rw [le_div_iff₀ hden, mul_comm]
    exact_mod_cast (Nat.mul_le_mul_left den h).trans split.1
  have upper {bound : Nat} (h : whole < bound) : (num : ℚ) / den ≤ bound := by
    rw [div_le_iff₀ hden, mul_comm]
    exact_mod_cast split.2.le.trans (Nat.mul_le_mul_left den h)
  have short : whole < 2 * leastNormal * 2 ^ (whole.log2 - 52) := by
    have : whole < 2 ^ (whole.log2 + 1) := Nat.lt_log2_self
    refine Nat.lt_of_lt_of_le this ?_
    rw [leastNormal_eq, ← Nat.pow_succ', ← Nat.pow_add]
    exact Nat.pow_le_pow_right two_pos (by omega)
  have long : whole.log2 - 52 = 0 ∨ leastNormal * 2 ^ (whole.log2 - 52) ≤ whole := by
    rcases Nat.le_total whole.log2 52 with small | large
    · exact .inl (Nat.sub_eq_zero_of_le small)
    · have nonzero : whole ≠ 0 := by
        rintro rfl
        exact absurd large (by decide)
      rw [leastNormal_eq, ← Nat.pow_add, Nat.add_sub_cancel' large]
      exact .inr (Nat.log2_self_le nonzero)
  generalize whole.log2 - 52 = spacing at short long ⊢
  have step : (0 : ℚ) < 2 ^ spacing := by positivity
  have rounded : IsRounded (roundQuotient num (den <<< spacing)) (num / den / 2 ^ spacing) := by
    have wide : 0 < den <<< spacing := by
      rw [Nat.shiftLeft_eq]
      positivity
    have scaled : (num : ℚ) / den / 2 ^ spacing = num / (den <<< spacing : ℕ) := by
      rw [Nat.shiftLeft_eq, div_div]
      push_cast
      rfl
    rw [scaled]
    exact isRounded_roundQuotient num wide
  have least : spacing = 0 ∨ leastNormal ≤ roundQuotient num (den <<< spacing) := by
    refine long.imp_right fun long => rounded.le_of_ge ?_
    rw [le_div_iff₀ step]
    exact_mod_cast lower long
  have greatest : roundQuotient num (den <<< spacing) ≤ 2 * leastNormal := by
    refine rounded.le_of_le ?_
    rw [div_le_iff₀ step]
    exact_mod_cast upper short
  have closest := closest_scaled rounded least greatest (long.imp_right lower)
    (Nat.le_max_right infinite _)
  exact closest.min (Nat.le_max_left _ _)

/-- The sign of a number, as a factor. -/
def sign (negative : Bool) : ℚ := if negative then -1 else 1

@[simp] theorem abs_sign_mul (negative : Bool) (number : ℚ) :
    |sign negative * number| = |number| := by
  cases negative <;> simp [sign]

/-- The number that a double stands for. Infinity counts as the power of two behind the largest
finite double. -/
def rational (x : Double) : ℚ := sign x.negative * (units x.magnitude / unitsPerOne)

/-- A double that is as close to a number as any other, and even if another one is as close.
Infinity counts as the power of two behind the largest finite double, so what lies half a spacing or
more beyond that double is nearest to infinity. -/
structure IsNearest (x : Double) (number : ℚ) : Prop where
  notNaN : x.isNaN = false
  closest : ∀ other : Double, other.isNaN = false →
    |x.rational - number| ≤ |other.rational - number|
  even : ∀ other : Double, other.isNaN = false → other.rational ≠ x.rational →
    |x.rational - number| = |other.rational - number| → x.magnitude % 2 = 0

theorem isNaN_eq_false_iff (x : Double) : x.isNaN = false ↔ x.magnitude ≤ infinite := by
  rw [isNaN, decide_eq_false_iff_not, Nat.not_lt]

/-- The distance of a double from a number, in units. -/
theorem abs_units_sub (magnitude : Nat) (absolute : ℚ) :
    |(units magnitude : ℚ) / unitsPerOne - absolute| =
      |(units magnitude : ℚ) - absolute * unitsPerOne| / unitsPerOne := by
  have one := cast_unitsPerOne_pos
  rw [← abs_of_pos one, ← abs_div, abs_of_pos one, sub_div, mul_div_cancel_right₀ _ one.ne']

/-- If a magnitude is the closest to a number without its sign, then with that sign it makes the
nearest double. -/
theorem isNearest_of_closest {x : Double} {absolute : ℚ} (nonneg : 0 ≤ absolute)
    (closest : Closest infinite x.magnitude (absolute * unitsPerOne)) :
    IsNearest x (sign x.negative * absolute) := by
  have one := cast_unitsPerOne_pos
  have own : |x.rational - sign x.negative * absolute| =
      |(units x.magnitude : ℚ) / unitsPerOne - absolute| := by
    rw [rational, ← mul_sub, abs_sign_mul]
  -- A double is no closer with another sign than that of the number.
  have unsigned (other : Double) : |(units other.magnitude : ℚ) / unitsPerOne - absolute| ≤
      |other.rational - sign x.negative * absolute| := by
    have := abs_abs_sub_abs_le other.rational (sign x.negative * absolute)
    rwa [rational, abs_sign_mul, abs_sign_mul, abs_of_nonneg nonneg,
      abs_of_nonneg (units_div_nonneg _)] at this
  have nearer {magnitude : Nat} (within : magnitude ≤ infinite) :
      |(units x.magnitude : ℚ) / unitsPerOne - absolute| ≤
        |(units magnitude : ℚ) / unitsPerOne - absolute| := by
    rw [abs_units_sub, abs_units_sub]
    exact div_le_div_of_nonneg_right (closest.closest _ within) one.le
  constructor
  · exact (isNaN_eq_false_iff x).mpr closest.le_last
  · intro other number
    rw [own]
    exact (nearer ((isNaN_eq_false_iff other).mp number)).trans (unsigned other)
  · intro other number different tie
    have within := (isNaN_eq_false_iff other).mp number
    rw [own] at tie
    by_cases same : other.magnitude = x.magnitude
    · -- The two have opposite signs, and can only be as close to a number if both are zero.
      have opposite : other.rational = -x.rational := by
        have signs : other.negative = !x.negative := by
          by_contra equal
          have : other.negative = x.negative := by simpa using equal
          exact different (by rw [rational, rational, same, this])
        rw [rational, rational, same, signs]
        cases x.negative <;> simp [sign]
      have size := units_div_nonneg x.magnitude
      have toZero := nearer (Nat.zero_le infinite)
      have further : |other.rational - sign x.negative * absolute| =
          units x.magnitude / unitsPerOne + absolute := by
        rw [opposite, rational, ← mul_neg, ← mul_sub, abs_sign_mul, ← neg_add', abs_neg,
          abs_of_nonneg (add_nonneg size nonneg)]
      rw [units_zero, Nat.cast_zero, zero_div, zero_sub, abs_neg,
        abs_of_nonneg nonneg, tie, further] at toZero
      have zero : (units x.magnitude : ℚ) / unitsPerOne = 0 := by linarith
      refine absurd ?_ different
      rw [opposite, rational, zero, mul_zero, neg_zero]
    · refine closest.even _ within same ?_
      have equal := le_antisymm (nearer within) ((unsigned other).trans tie.ge)
      rw [abs_units_sub, abs_units_sub] at equal
      exact (div_left_inj' one.ne').mp equal

@[simp] theorem negative_ofDecimal (negative : Bool) (digits : Nat) (exponent : Int) :
    (ofDecimal negative digits exponent).negative = negative := by
  simp only [ofDecimal]
  split
  · rfl
  · split <;> rfl

/-- A number lies between the powers of ten that the count of its digits gives. -/
theorem exists_length_toDigits {n : Nat} (nonzero : n ≠ 0) :
    ∃ length, (Nat.toDigits 10 n).length = length + 1 ∧
      10 ^ length ≤ n ∧ n < 10 ^ (length + 1) := by
  have short (length : Nat) (more : 0 < length) :
      (Nat.toDigits 10 n).length ≤ length ↔ n < 10 ^ length :=
    Nat.length_toDigits_le_iff (by decide) more
  have some_digit : 0 < (Nat.toDigits 10 n).length :=
    List.length_pos_iff.mpr Nat.toDigits_ne_nil
  obtain ⟨length, hlength⟩ := Nat.exists_eq_add_one.mpr some_digit
  refine ⟨length, hlength, ?_, (short _ (Nat.succ_pos _)).mp hlength.le⟩
  rcases Nat.eq_zero_or_pos length with rfl | more
  · exact Nat.pos_of_ne_zero nonzero
  · exact Nat.not_lt.mp (mt (short length more).mpr (by omega))

/-- The digits of a number, with a power of ten behind them, say how large it is. -/
theorem decimal_bounds {digits : Nat} (nonzero : digits ≠ 0) (exponent : Int) :
    let top := (Nat.toDigits 10 digits).length + exponent
    (10 : ℚ) ^ (top - 1) ≤ digits * 10 ^ exponent ∧ digits * (10 : ℚ) ^ exponent < 10 ^ top := by
  intro top
  have positive : (0 : ℚ) < 10 ^ exponent := zpow_pos (by norm_num) _
  obtain ⟨length, hlength, least, greatest⟩ := exists_length_toDigits nonzero
  have htop : top = length + 1 + exponent := by
    simp only [top, hlength, Nat.cast_add, Nat.cast_one]
  rw [htop, add_right_comm, add_sub_cancel_right, add_right_comm, zpow_add₀ (by norm_num),
    zpow_add₀ (by norm_num)]
  constructor
  · apply mul_le_mul_of_nonneg_right _ positive.le
    exact_mod_cast least
  · apply mul_lt_mul_of_pos_right _ positive
    exact_mod_cast greatest

theorem zpow_ten_eq_div (exponent : Int) :
    (10 : ℚ) ^ exponent = (Nat.pow 10 exponent.toNat : ℕ) / (Nat.pow 10 (-exponent).toNat : ℕ) := by
  rcases Int.le_total 0 exponent with nonneg | nonpos
  · obtain ⟨n, rfl⟩ := Int.eq_ofNat_of_zero_le nonneg
    simp
  · obtain ⟨n, hn⟩ := Int.exists_eq_neg_ofNat nonpos
    rw [hn]
    simp

theorem two_unitsPerOne_lt : 2 * unitsPerOne < 10 ^ 324 := by
  rw [unitsPerOne_eq]
  decide +kernel

theorem units_infinite_le : units infinite ≤ 10 ^ 309 * unitsPerOne := by
  have split : infinite = 2046 * leastNormal + leastNormal := by decide
  rw [split, units_scaled (.inr (Nat.le_refl _)) (by decide), unitsPerOne_eq]
  decide +kernel

/-- Reading a decimal gives the nearest double. From 10⁻³²⁴ down and from 10³⁰⁹ up that is zero and
infinity, whatever the digits are. -/
theorem isNearest_ofDecimal (negative : Bool) (digits : Nat) (exponent : Int) :
    IsNearest (ofDecimal negative digits exponent)
      (sign negative * (digits * (10 : ℚ) ^ exponent)) := by
  have nonneg : (0 : ℚ) ≤ digits * (10 : ℚ) ^ exponent :=
    mul_nonneg (Nat.cast_nonneg _) (zpow_nonneg (by norm_num) _)
  have one := cast_unitsPerOne_pos
  suffices Closest infinite (ofDecimal negative digits exponent).magnitude
      (digits * (10 : ℚ) ^ exponent * unitsPerOne) by
    have nearest := isNearest_of_closest nonneg this
    rwa [negative_ofDecimal] at nearest
  simp only [ofDecimal]
  split
  · next small =>
      apply closest_zero (mul_nonneg nonneg one.le)
      rcases small with rfl | small
      · norm_num
      · by_cases zero : digits = 0
        · rw [zero]
          norm_num
        · have tiny : digits * (10 : ℚ) ^ exponent ≤ 10 ^ (-324 : ℤ) :=
            (decimal_bounds zero exponent).2.le.trans (zpow_le_zpow_right₀ (by norm_num) small)
          have half : 2 * (unitsPerOne : ℚ) < 10 ^ (324 : ℤ) := by
            exact_mod_cast two_unitsPerOne_lt
          calc 2 * (digits * (10 : ℚ) ^ exponent * unitsPerOne)
              = digits * (10 : ℚ) ^ exponent * (2 * unitsPerOne) := by ring
            _ ≤ 10 ^ (-324 : ℤ) * (2 * unitsPerOne) :=
                mul_le_mul_of_nonneg_right tiny (by linarith)
            _ < 10 ^ (-324 : ℤ) * 10 ^ (324 : ℤ) :=
                mul_lt_mul_of_pos_left half (zpow_pos (by norm_num) _)
            _ = 1 := by rw [← zpow_add₀ (by norm_num)]; rfl
  · next inRange =>
      split
      · next large =>
          have huge : (10 : ℚ) ^ (309 : ℤ) ≤ digits * 10 ^ exponent :=
            (zpow_le_zpow_right₀ (by norm_num) (by omega)).trans
              (decimal_bounds (not_or.mp inRange).1 exponent).1
          have beyond : (units infinite : ℚ) ≤ 10 ^ (309 : ℤ) * unitsPerOne := by
            exact_mod_cast units_infinite_le
          exact closest_last (beyond.trans (mul_le_mul_of_nonneg_right huge one.le))
      · have positive : 0 < Nat.pow 10 (-exponent).toNat := Nat.pow_pos (by decide)
        have quotient : digits * (10 : ℚ) ^ exponent * unitsPerOne =
            (digits * Nat.pow 10 exponent.toNat * unitsPerOne : ℕ) /
              (Nat.pow 10 (-exponent).toNat : ℕ) := by
          rw [zpow_ten_eq_div]
          push_cast
          ring
        rw [quotient]
        exact closest_nearest _ positive

end Double

end CssSyntax
