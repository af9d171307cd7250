import CssSyntax.Proofs.Payloads
import CssSyntax.Proofs.RoundTrip

/-!
Numbers, percentages and dimensions are read back as one token. Their text is a numeral that nothing
behind it goes on, not even a unit that looks like an exponent. The sign is kept, and an integer
within the range of integers; a unit is kept but for a capital letter that begins an exponent, and a
number that is not whole may be read back as an integer.
-/

namespace CssSyntax

open CodePoint Text

namespace Double

/-- Whole numbers below 2⁵³ are doubles. -/
theorem exists_units_eq {n : Nat} (small : n < 2 ^ 53) :
    ∃ magnitude < infinite, units magnitude = n * unitsPerOne := by
  rcases Nat.eq_zero_or_pos n with rfl | positive
  · exact ⟨0, by decide, by rw [units_zero, Nat.zero_mul]⟩
  · have nonzero : n ≠ 0 := Nat.ne_of_gt positive
    have low : 2 ^ n.log2 ≤ n := Nat.log2_self_le nonzero
    have high : n < 2 ^ (n.log2 + 1) := Nat.lt_log2_self
    generalize n.log2 = top at low high
    have within : top < 53 := (Nat.pow_lt_pow_iff_right (by decide)).mp (low.trans_lt small)
    -- Moved up by the room that is left, the first digit is the one in front of the fraction.
    obtain ⟨room, hroom⟩ := Nat.exists_eq_add_of_le (Nat.le_of_lt_succ within)
    have least : leastNormal ≤ n * 2 ^ room := by
      rw [leastNormal_eq, hroom, Nat.pow_add]
      exact Nat.mul_le_mul_right _ low
    have greatest : n * 2 ^ room ≤ 2 * leastNormal := by
      have last : top + room + 1 = top + 1 + room := by omega
      rw [leastNormal_eq, hroom, ← Nat.pow_succ', Nat.succ_eq_add_one, last, Nat.pow_add]
      exact Nat.mul_le_mul_right _ high.le
    refine ⟨(1022 + top) * leastNormal + n * 2 ^ room, ?_, ?_⟩
    · have last : 1076 * leastNormal < infinite := by decide
      have : (1022 + top) * leastNormal ≤ 1074 * leastNormal := Nat.mul_le_mul_right _ (by omega)
      omega
    · rw [units_scaled (.inr least) greatest, Nat.mul_assoc, ← Nat.pow_add, unitsPerOne_eq]
      congr 2
      omega

theorem truncate_of_rational {x : Double} {whole : ℤ} (same : x.rational = whole) :
    x.truncate = whole := by
  have one : (unitsPerOne : ℤ) ≠ 0 := by exact_mod_cast unitsPerOne_pos.ne'
  have size := units_div_nonneg x.magnitude
  simp only [truncate, units_of_rational same]
  rw [rational, sign] at same
  generalize unitsPerOne = scale at *
  rw [Nat.cast_mul, Int.mul_ediv_cancel_left _ one]
  by_cases negative : x.negative
  · rw [if_pos negative, neg_one_mul] at same
    have nonpos : whole ≤ 0 := by
      have : (whole : ℚ) ≤ 0 := by linarith
      exact_mod_cast this
    rw [if_pos negative]
    omega
  · rw [if_neg negative, one_mul] at same
    have nonneg : 0 ≤ whole := by
      have : (0 : ℚ) ≤ whole := by linarith
      exact_mod_cast this
    rw [if_neg negative]
    omega

/-- Whole numbers below 2⁵³ are doubles, with their sign. -/
theorem exists_rational_eq_whole {whole : ℤ} (small : whole.natAbs < 2 ^ 53) :
    ∃ x : Double, x.isNaN = false ∧ x.rational = whole := by
  have one := cast_unitsPerOne_pos.ne'
  obtain ⟨magnitude, finite, units_eq⟩ := exists_units_eq small
  have last : infinite < 0x8000000000000000 := by decide
  let double : Double := ⟨decide (whole < 0), magnitude, finite.trans last⟩
  refine ⟨double, (isNaN_eq_false_iff _).mpr finite.le, ?_⟩
  simp only [rational, double, units_eq, sign]
  push_cast
  rw [mul_div_cancel_right₀ _ one]
  by_cases negative : whole < 0
  · simp [negative, abs_of_neg]
  · simp [negative, abs_of_nonneg (Int.not_lt.mp negative)]

/-- The double nearest to a whole number below 2⁵³ is that number. -/
theorem IsNearest.rational_eq {x : Double} {whole : ℤ} (nearest : x.IsNearest whole)
    (small : whole.natAbs < 2 ^ 53) : x.rational = whole := by
  obtain ⟨double, notNaN, number⟩ := exists_rational_eq_whole small
  have closest := nearest.closest double notNaN
  rwa [number, sub_self, abs_zero, abs_nonpos_iff, sub_eq_zero] at closest

theorem toInt32_range (x : Double) : -0x80000000 ≤ x.toInt32 ∧ x.toInt32 ≤ 0x7FFFFFFF := by
  simp only [toInt32]
  split <;> omega

/-- A double that is whole is clamped. -/
theorem toInt32_of_rational {x : Double} (notNaN : x.isNaN = false) {whole : ℤ}
    (same : x.rational = whole) : x.toInt32 = max (-0x80000000) (min whole 0x7FFFFFFF) := by
  rw [toInt32, notNaN, truncate_of_rational same]
  rfl

/-- A double near a whole number within the range of integers is that number. -/
theorem toInt32_of_isNearest {x : Double} {whole : ℤ} (nearest : x.IsNearest whole)
    (range : -0x80000000 ≤ whole ∧ whole ≤ 0x7FFFFFFF) : x.toInt32 = whole := by
  rw [toInt32_of_rational nearest.notNaN (nearest.rational_eq (by omega))]
  omega

end Double

namespace Numeric

variable {p : Numeric} {n : Numeral}

theorem Written.negative (written : p.Written n) : n.value.negative = p.value.negative := by
  rw [Numeral.negative_value, written.sign, sign_eq_minus]

/-- The numeral that a number is written as keeps its sign, and its value if it is an integer. -/
theorem Written.kept (written : p.Written n) (isNumber : p.IsNumber) (unit : Option Text) :
    let again := Lexeme.payload n unit
    again.hasSign = p.hasSign ∧ again.value.negative = p.value.negative ∧
      (p.isInteger → again.isInteger ∧ again.intValue? = p.intValue?) := by
  refine ⟨?_, ?_, fun integer => ?_⟩
  · simp only [Lexeme.payload, Numeral.hasSign, written.sign, Numeric.sign]
    by_cases negative : p.value.negative
    · simp [negative, isNumber.hasSign negative]
    · by_cases plus : p.hasSign <;> simp [negative, plus]
  · exact written.negative
  · obtain ⟨isInteger, rational⟩ := written.integer integer
    refine ⟨isInteger, ?_⟩
    have nearest := n.isNearest_value
    rw [rational] at nearest
    have value := Double.toInt32_of_isNearest nearest p.value.toInt32_range
    simp only [intValue?, Lexeme.payload, isInteger, integer, if_true, value]

/-- The unit that is read back: a capital letter that could begin an exponent is not kept. -/
def unitAgain (unit : Text) : Text :=
  if readsAsExponent unit then 'e' :: unit.drop 1 else unit

/-- A unit that is a capital letter with a hyphen, a digit or nothing behind it, like the start of
an exponent. -/
def CapitalExponent (unit more : Text) : Prop :=
  unit = 'E' :: more ∧ ∀ next ∈ more.head?, next = '-' ∨ next.isDigit

theorem unitAgain_of_capital {unit more : Text} (capital : CapitalExponent unit more) :
    unitAgain unit = 'e' :: more := by
  obtain ⟨rfl, follows⟩ := capital
  cases more with
  | nil => rfl
  | cons next more =>
      have exponent : readsAsExponent ('E' :: next :: more) := by
        simpa [readsAsExponent] using follows next rfl
      rw [unitAgain, if_pos exponent]
      rfl

theorem unitAgain_of_not_capital {unit : Text} (plain : ¬∃ more, CapitalExponent unit more) :
    unitAgain unit = unit := by
  rw [unitAgain, ite_eq_right_iff]
  intro exponent
  cases unit with
  | nil => cases exponent
  | cons c more =>
      obtain ⟨mark, follows⟩ : (c = 'e' ∨ c = 'E') ∧
          ∀ next ∈ more.head?, next = '-' ∨ next.isDigit := by
        cases more <;> simpa [readsAsExponent] using exponent
      rcases mark with rfl | rfl
      · rfl
      · exact absurd ⟨more, rfl, follows⟩ plain

end Numeric

namespace Numeral

theorem endsBefore_of_head {n : Numeral} {c : Char} {rest : Text} (notDigit : c.isDigit = false)
    (notPoint : c ≠ '.') (noExponent : Exponent.read (c :: rest) = none) :
    n.EndsBefore (c :: rest) :=
  ⟨stopsAt_cons.mpr notDigit, fun _ => noExponent, fun _ _ => by simp [readFraction, notPoint]⟩

end Numeral

/-- What begins with no letter of an exponent is none, and neither is such a letter that no sign or
digit follows. -/
theorem Exponent.read_eq_none {c : Char} {rest : Text}
    (h : c = 'e' ∨ c = 'E' → ∀ d ∈ rest.head?, d ≠ '+' ∧ d ≠ '-' ∧ d.isDigit = false) :
    read (c :: rest) = none := by
  by_cases mark : c = 'e' ∨ c = 'E'
  · cases rest with
    | nil => simp [read, splitSign]
    | cons d rest =>
        obtain ⟨notPlus, notMinus, notDigit⟩ := h mark d rfl
        simp [read, splitSign, notPlus, notMinus, notDigit]
  · simp [read, mark]

namespace Identifier

/-- A unit does not go on the number before it, unless it is recognized as an exponent. -/
theorem read_exponent_written {unit : Text} (nonempty : unit ≠ [])
    (plain : ¬Numeric.readsAsExponent unit) : Exponent.read (written unit) = none := by
  obtain rfl | ⟨more, rfl⟩ | ⟨c, more, notHyphen, rfl⟩ | ⟨c, more, notHyphen, rfl⟩ :=
    cases_of_ne_nil nonempty
  · decide
  · exact Exponent.read_eq_none (by simp)
  · rw [written_of_hyphen notHyphen]
    exact Exponent.read_eq_none (by simp)
  · rw [written_of_ne notHyphen]
    rcases tail_cases c more with ⟨name, notDigit, whole⟩ | ⟨escape, whole⟩
    · rw [whole]
      refine Exponent.read_eq_none fun mark d first => ?_
      cases more with
      | nil => rcases mark with rfl | rfl <;> simp [Numeric.readsAsExponent] at plain
      | cons next more =>
          obtain ⟨nextNotHyphen, nextNotDigit⟩ : next ≠ '-' ∧ next.isDigit = false := by
            rcases mark with rfl | rfl <;> simpa [Numeric.readsAsExponent] using plain
          rw [Name.written_cons] at first
          rcases Name.form_cases next with ⟨name, form⟩ | ⟨escape, form⟩
          · rw [form] at first
            cases first
            refine ⟨?_, nextNotHyphen, nextNotDigit⟩
            rintro rfl
            exact absurd name (by decide)
          · rw [form] at first
            cases first
            decide
    · rw [whole]
      exact Exponent.read_eq_none (by simp)

end Identifier

namespace Lexeme

/-- A text that makes a lexeme of any numeral before it, and is read as a whole. -/
structure Closes (kind : Kind) (text value : Text) (unit : Option Text) : Prop where
  ends : ∀ n : Numeral, n.EndsBefore text
  normal : text.IsNormal
  read_eq : ∀ n : Numeral, readNumeric n text =
    { lexeme := { kind := kind, value := n.text ++ value, numeric := some (payload n unit) }
      rest := [] }

theorem closes_number : Closes .number [] [] none := by
  refine ⟨Numeral.endsBefore_nil, by simp, fun n => ?_⟩
  rw [readNumeric_number n (by decide) (by decide), List.append_nil]

theorem closes_percentage : Closes .percentage ['%'] ['%'] none :=
  ⟨fun _ => Numeral.endsBefore_of_head (by decide) (by decide) (by decide),
    by simp, fun n => readNumeric_percentage n []⟩

/-- What starts an identifier closes a number, unless it goes on it. -/
theorem closes_dimension {text unit : Text} (starts : (Lookahead.ofText text).startsIdentifier)
    (noExponent : Exponent.read text = none) (normal : text.IsNormal)
    (name : Name.read text = (unit, [])) : Closes .dimension text unit (some unit) := by
  refine ⟨fun n => ?_, normal, fun n => by rw [readNumeric_dimension n starts, name]⟩
  cases text with
  | nil => simp [Lookahead.ofText, Lookahead.startsIdentifier] at starts
  | cons c rest =>
      obtain ⟨-, notDigit, notPoint, -⟩ := ((Name.startsIdentifier_iff _).mp starts).1.first
      exact Numeral.endsBefore_of_head notDigit notPoint noExponent

/-- A unit closes the number that it is written behind. -/
theorem closes_unit {unit : Text} (word : IsWord unit) :
    Closes .dimension (Numeric.unitPieces unit).flatten (Numeric.unitAgain unit)
      (some (Numeric.unitAgain unit)) := by
  rw [Numeric.unitPieces, Numeric.unitAgain]
  split
  · next exponent =>
      -- The letter is written as an escape, which is read back as a small one.
      have letter (rest : Text) : Escape.read ('6' :: '5' :: ' ' :: rest) = some ('e', rest) := rfl
      have whole : (['\\', '6', '5', ' '] :: Name.pieces (unit.drop 1)).flatten =
          '\\' :: '6' :: '5' :: ' ' :: Name.written (unit.drop 1) := rfl
      rw [whole]
      apply closes_dimension
      · simp [Lookahead.ofText, Lookahead.startsIdentifier, startsEscape]
      · exact Exponent.read_eq_none (by simp)
      · exact Text.isNormal_append.mpr
          ⟨Escape.isNormal_byNumber 'e', Name.isNormal_written (unit.drop 1)⟩
      · have noNul : '\x00' ∉ unit.drop 1 := mt List.mem_of_mem_drop word.noNul
        have nothing : Name.read [] = ([], []) := Name.read_of_not_continuesName (by decide)
        have name := Name.read_written (unit.drop 1) []
        rw [List.append_nil, Text.replaceNul_eq_self noNul, nothing, List.append_nil] at name
        rw [Name.read_of_escape (letter _), name]
  · next plain =>
      have nonempty := word.nonempty
      apply closes_dimension
      · have starts := Identifier.startsIdentifier_written nonempty []
        rwa [List.append_nil] at starts
      · exact Identifier.read_exponent_written nonempty plain
      · exact Identifier.isNormal_written unit
      · have name := @IsWord.read_written unit word [] (by decide)
        rwa [List.append_nil] at name

/-- A numeral with what closes it is read back as a whole. -/
theorem Closes.read {kind : Kind} {text value : Text} {unit : Option Text}
    (closes : Closes kind text value unit) {n : Numeral} (wf : n.WellFormed) :
    Lexeme.read (n.text ++ text) =
      { lexeme := { kind := kind, value := n.text ++ value, numeric := some (payload n unit) }
        rest := [] } := by
  rw [read_of_read_numeral (Numeral.read_text_append wf (closes.ends n)), closes.read_eq]

theorem Closes.isNormal {kind : Kind} {text value : Text} {unit : Option Text}
    (closes : Closes kind text value unit) {n : Numeral} (wf : n.WellFormed) :
    (n.text ++ text).IsNormal := by
  refine Text.isNormal_append.mpr ⟨fun c mem => ?_, closes.normal⟩
  have part := wf.isPart_of_mem_text c mem
  refine ⟨?_, ?_, ?_⟩ <;> rintro rfl <;> exact absurd part (by decide)

theorem isNumber_payload (n : Numeral) (unit : Option Text) : (payload n unit).IsNumber := by
  refine ⟨n.isNearest_value.notNaN, fun negative => ?_⟩
  rw [payload, Numeral.negative_value, beq_iff_eq] at negative
  rw [payload, Numeral.hasSign, negative]
  rfl

/-- The text of a number is that of its value with what closes a numeral behind it. -/
theorem exists_closes {text : Text} (normal : text.IsNormal)
    (numeric : (read text).lexeme.kind ∈ [Kind.number, .percentage, .dimension]) :
    ∃ (p : Numeric) (tail value : Text),
      (read text).lexeme.numeric = some p ∧ p.IsNumber ∧
        ((read text).lexeme.kind = .dimension → p.unit.isSome) ∧
        (read text).lexeme.css = p.numberPieces.flatten ++ tail ∧
        Closes (read text).lexeme.kind tail value (p.unit.map Numeric.unitAgain) := by
  obtain ⟨⟨n, behind⟩, hread⟩ := exists_read_of_kind numeric
  obtain ⟨whole, -, -⟩ := Numeral.read_eq_some_iff.mp hread
  have noNul : '\x00' ∉ behind := fun nul =>
    (normal _ (by rw [whole]; exact List.mem_append_right _ nul)).1 rfl
  rw [read_of_read_numeral hread]
  by_cases percent : behind.head? = some '%'
  · obtain ⟨left, rfl⟩ := List.head?_eq_some_iff.mp percent
    rw [readNumeric_percentage]
    exact ⟨_, ['%'], _, rfl, isNumber_payload n none, by simp,
      by simp [css, pieces, Numeric.pieces], closes_percentage⟩
  · by_cases identifier : (Lookahead.ofText behind).startsIdentifier
    · have word := isWord_read noNul (Lookahead.continuesName_of_startsIdentifier identifier)
      rw [readNumeric_dimension n identifier]
      exact ⟨_, _, _, rfl, isNumber_payload n _, by simp [payload],
        by simp [css, pieces, Numeric.pieces, payload], closes_unit word⟩
    · rw [readNumeric_number n percent identifier]
      exact ⟨_, [], _, rfl, isNumber_payload n none, by simp,
        by simp [css, pieces, Numeric.pieces], closes_number⟩

end Lexeme

/-- The numbers among the tokens of a text are read off normal text. -/
theorem exists_read_of_numeric {input : Text} {token : Token} (mem : token ∈ tokenize input)
    (numeric : token.kind ∈ [Kind.number, .percentage, .dimension]) :
    ∃ (text : Text) (place : Position), text.IsNormal ∧
      token = (Lexeme.read text).token text place := by
  obtain ⟨found, hfound, rfl⟩ := List.mem_map.mp mem
  have notEnd : found.1.kind ≠ .endOfInput := by
    intro ended
    rw [ended] at numeric
    exact absurd numeric (by decide)
  obtain ⟨front, behind, place, split, -, rfl⟩ := exists_read_of_mem hfound notEnd
  have all := Units.isNormal_normalize (Units.ofText input)
  rw [split] at all
  exact ⟨behind, place, (Text.isNormal_append.mp all).2, rfl⟩

/-- A number is written as the text of a numeral and what closes it, and read back as the token of
that numeral. -/
theorem exists_tokenize_css {input : Text} {token : Token} (mem : token ∈ tokenize input)
    (numeric : token.kind ∈ [Kind.number, .percentage, .dimension]) :
    ∃ (p : Numeric) (n : Numeral) (value : Text),
      token.numeric = some p ∧ p.IsNumber ∧ (token.kind = .dimension → p.unit.isSome) ∧
        p.Written n ∧
        tokenize token.css =
          [⟨⟨token.kind, value, some (Lexeme.payload n (p.unit.map Numeric.unitAgain)), false⟩,
            token.css, .start⟩, endToken (.after .start token.css)] := by
  obtain ⟨behind, place, normal, rfl⟩ := exists_read_of_numeric mem numeric
  obtain ⟨p, tail, value, payload, isNumber, unit, css, closes⟩ :=
    Lexeme.exists_closes normal numeric
  obtain ⟨n, written⟩ := Numeric.exists_written isNumber
  rw [written.text] at css
  have again := closes.read written.wellFormed
  have taken : (Lexeme.read behind).lexeme.css ≠ [] := by
    rw [css]
    exact List.append_ne_nil_of_left_ne_nil (Numeral.text_ne_nil written.wellFormed) tail
  rw [← css] at again
  refine ⟨p, n, n.text ++ value, payload, isNumber, unit, written, ?_⟩
  rw [tokenize, Scanned.token, Units.normalize_ofText (css ▸ closes.isNormal written.wellFormed),
    tokensFrom_of_whole taken (by rw [again]), again]
  rfl

/-- What is read at the start of a text is one of its tokens. -/
theorem mem_tokenize {text : Text} (nonempty : text ≠ []) (normal : text.IsNormal) :
    (Lexeme.read text).token text .start ∈ tokenize text := by
  rw [tokenize, Units.normalize_ofText normal, tokensFrom_of_ne_nil nonempty]
  exact List.mem_cons_self

/-- A number written as CSS text is read back as one token of its kind, with its sign, and as the
same integer if it is one. -/
theorem tokenize_css_numeric {input : Text} {token : Token} (mem : token ∈ tokenize input)
    (numeric : token.kind ∈ [Kind.number, .percentage, .dimension]) :
    ∃ (again : Token) (old new : Numeric),
      tokenize token.css = [again, endToken (.after .start token.css)] ∧
        again.kind = token.kind ∧ token.numeric = some old ∧ again.numeric = some new ∧
        new.hasSign = old.hasSign ∧ new.value.negative = old.value.negative ∧
        (old.isInteger → new.isInteger ∧ new.intValue? = old.intValue?) := by
  obtain ⟨old, n, value, payload, isNumber, -, written, again⟩ := exists_tokenize_css mem numeric
  exact ⟨_, old, _, again, rfl, payload, rfl, written.kept isNumber _⟩

/-- Negative zero is an integer, and keeps its sign. -/
theorem tokenize_css_numeric_zero :
    let zero : Numeric := ⟨⟨true, 0, by decide⟩, true, true, none⟩
    let token : Token := ⟨⟨.percentage, ['-', '0', '%'], some zero, false⟩, ['-', '0', '%'], .start⟩
    token ∈ tokenize ['-', '0', '%'] ∧
      ∃ (again : Token) (new : Numeric),
        tokenize token.css = [again, endToken (.after .start token.css)] ∧
          again.kind = .percentage ∧ again.numeric = some new ∧ new.hasSign ∧
          new.value.negative ∧ new.isInteger ∧ new.intValue? = some 0 := by
  intro zero token
  have numeral : Numeral.read ['-', '0', '%'] = some (⟨some '-', ['0'], [], none⟩, ['%']) := by
    decide
  have first : Lexeme.read ['-', '0', '%'] = { lexeme := token.toLexeme, rest := [] } := by
    rw [Lexeme.read_of_read_numeral numeral, Lexeme.readNumeric_percentage]
    rfl
  have mem : token ∈ tokenize ['-', '0', '%'] := by
    have head := mem_tokenize (List.cons_ne_nil '-' ['0', '%']) (by simp)
    rwa [first] at head
  obtain ⟨again, old, new, whole, kind, payload, numeric, hasSign, negative, integer⟩ :=
    tokenize_css_numeric mem (by decide)
  obtain rfl : zero = old := Option.some.inj payload
  obtain ⟨isInteger, value⟩ := integer rfl
  have number : zero.intValue? = some 0 := by decide +kernel
  exact ⟨mem, again, new, whole, kind, numeric, hasSign, negative, isInteger, value.trans number⟩

/-- A dimension written as CSS text is read back with its unit, but for a capital letter that could
begin an exponent: the escape that is written for it gives the small one. -/
theorem tokenize_css_unit {input : Text} {token : Token} (mem : token ∈ tokenize input)
    (dimension : token.kind = .dimension) :
    ∃ (again : Token) (old new : Numeric) (unit : Text),
      tokenize token.css = [again, endToken (.after .start token.css)] ∧
        again.kind = .dimension ∧ token.numeric = some old ∧ again.numeric = some new ∧
        old.unit = some unit ∧
        (∀ more, Numeric.CapitalExponent unit more → new.unit = some ('e' :: more)) ∧
        ((¬∃ more, Numeric.CapitalExponent unit more) → new.unit = some unit) := by
  obtain ⟨old, n, value, payload, -, hasUnit, -, again⟩ :=
    exists_tokenize_css mem (by simp [dimension])
  obtain ⟨unit, hunit⟩ := Option.isSome_iff_exists.mp (hasUnit dimension)
  have kept : (Lexeme.payload n (old.unit.map Numeric.unitAgain)).unit =
      some (Numeric.unitAgain unit) := by rw [Lexeme.payload, hunit, Option.map_some]
  refine ⟨_, old, _, unit, again, dimension, payload, rfl, hunit, fun more capital => ?_,
    fun plain => ?_⟩
  · rw [kept, Numeric.unitAgain_of_capital capital]
  · rw [kept, Numeric.unitAgain_of_not_capital plain]

/-- The unit of `1E` is read back as a small letter. -/
theorem tokenize_css_unit_capital :
    let one : Numeric := ⟨⟨false, 0x3FF0000000000000, by decide⟩, true, false, some ['E']⟩
    let token : Token := ⟨⟨.dimension, ['1', 'E'], some one, false⟩, ['1', 'E'], .start⟩
    token ∈ tokenize ['1', 'E'] ∧
      ∃ (again : Token) (new : Numeric),
        tokenize token.css = [again, endToken (.after .start token.css)] ∧
          again.kind = .dimension ∧ again.numeric = some new ∧ new.unit = some ['e'] := by
  intro one token
  have name : Name.read ['E'] = (['E'], []) := by
    rw [Name.read_of_name (by decide), Name.read_of_not_continuesName (by decide)]
  have numeral : Numeral.read ['1', 'E'] = some (⟨none, ['1'], [], none⟩, ['E']) := by decide
  have identifier : (Lookahead.ofText ['E']).startsIdentifier := by decide
  have value : Numeral.value ⟨none, ['1'], [], none⟩ = one.value := by decide +kernel
  have first : Lexeme.read ['1', 'E'] = { lexeme := token.toLexeme, rest := [] } := by
    rw [Lexeme.read_of_read_numeral numeral, Lexeme.readNumeric_dimension _ identifier, name,
      Lexeme.payload, value]
    rfl
  have mem : token ∈ tokenize ['1', 'E'] := by
    have head := mem_tokenize (List.cons_ne_nil '1' ['E']) (by simp)
    rwa [first] at head
  obtain ⟨again, old, new, unit, whole, kind, payload, numeric, hunit, capital, -⟩ :=
    tokenize_css_unit mem rfl
  obtain rfl : one = old := Option.some.inj payload
  obtain rfl : ['E'] = unit := Option.some.inj hunit
  exact ⟨mem, again, new, whole, kind, numeric, capital [] ⟨rfl, by simp⟩⟩

/-- A number that is no integer is read back as the number that is written for it, and as an
integer exactly if it is finite and not whole and the number written for it is. -/
theorem tokenize_css_decimal {input : Text} {token : Token} {old : Numeric}
    (mem : token ∈ tokenize input) (numeric : token.kind ∈ [Kind.number, .percentage, .dimension])
    (payload : token.numeric = some old) (decimal : old.isInteger = false) :
    ∃ (again : Token) (new : Numeric),
      tokenize token.css = [again, endToken (.after .start token.css)] ∧
        again.kind = token.kind ∧ again.numeric = some new ∧
        new.value.IsNearest (Double.sign old.value.negative * old.value.written) ∧
        (new.isInteger ↔ old.value.isFinite ∧ (¬∃ whole : ℤ, old.value.rational = whole) ∧
          ∃ whole : ℕ, old.value.written = whole) := by
  obtain ⟨p, n, value, found, isNumber, -, written, again⟩ := exists_tokenize_css mem numeric
  obtain rfl : p = old := Option.some.inj (found.symm.trans payload)
  obtain ⟨rational, isInteger⟩ := written.decimal decimal
  refine ⟨_, _, again, rfl, rfl, ?_, ?_⟩
  · rw [← rational]
    exact n.isNearest_value
  · refine isInteger.trans (and_congr_right fun finite => and_congr_left fun _ => ?_)
    rw [Double.isWhole_iff, finite]
    simp

/-- The shortest decimal of `100.00000000000001` has seventeen digits, and with fifteen it is the
integer `100`. -/
theorem tokenize_css_decimal_rounded :
    let more : Numeric := ⟨⟨false, 4636737291354636289, by decide⟩, false, false, none⟩
    let fraction : Text := List.replicate 13 '0' ++ ['1']
    let text : Text := '1' :: '0' :: '0' :: '.' :: fraction
    let token : Token := ⟨⟨.number, text, some more, false⟩, text, .start⟩
    token ∈ tokenize text ∧
      ∃ (again : Token) (new : Numeric),
        tokenize token.css = [again, endToken (.after .start token.css)] ∧
          again.kind = .number ∧ again.numeric = some new ∧ new.value.IsNearest 100 ∧
          new.isInteger := by
  intro more fraction text token
  have numeral : Numeral.read text = some (⟨none, ['1', '0', '0'], fraction, none⟩, []) := by decide
  have value : Numeral.value ⟨none, ['1', '0', '0'], fraction, none⟩ = more.value := by
    decide +kernel
  have first : Lexeme.read text = { lexeme := token.toLexeme, rest := [] } := by
    rw [Lexeme.read_of_read_numeral numeral, Lexeme.readNumeric_number _ (by decide) (by decide),
      Lexeme.payload, value]
    rfl
  have mem : token ∈ tokenize text := by
    have head := mem_tokenize (List.cons_ne_nil _ _ : text ≠ []) (by simp [fraction])
    rwa [first] at head
  have shortest : (Double.shortest more.value.magnitude).round 15 = ⟨['1'], 3⟩ := by
    decide +kernel
  have written : more.value.written = 100 := by
    rw [Double.written, shortest]
    have one : digitsValue ['1'] = 1 := by decide
    norm_num [Decimal.rational, one]
  have notWhole : ¬more.value.isWhole := by decide +kernel
  have finite : more.value.isFinite := by decide
  obtain ⟨again, new, whole, kind, numeric, nearest, isInteger⟩ :=
    tokenize_css_decimal mem (by decide) rfl rfl
  rw [Double.isWhole_iff, finite] at notWhole
  rw [written] at nearest isInteger
  exact ⟨mem, again, new, whole, kind, numeric, by simpa [Double.sign] using nearest,
    isInteger.mpr ⟨finite, by simpa using notWhole, 100, rfl⟩⟩

end CssSyntax
