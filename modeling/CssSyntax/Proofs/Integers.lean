import CssSyntax.Proofs.Midpoints
import CssSyntax.Proofs.Quantities

/-!
Integers are read as whole numbers, since from 2⁵² on all doubles are whole. The limits of 32-bit
integers are doubles too, so rounding takes no integer across them, and clamping the double gives
what clamping the integer would. Integers are written clamped, so they keep their value exactly if
it lies in that range.
-/

namespace CssSyntax

namespace Double

/-- A whole number below 2⁵³ is the double closest to it. -/
theorem Closest.units_eq {magnitude n : Nat} (h : Closest infinite magnitude (n * unitsPerOne))
    (small : n < 2 ^ 53) : units magnitude = n * unitsPerOne := by
  obtain ⟨double, finite, same⟩ := exists_units_eq small
  have closer := h.closest double finite.le
  rw [same, Nat.cast_mul, sub_self, abs_zero, abs_nonpos_iff, sub_eq_zero] at closer
  exact_mod_cast closer

/-- The double closest to a whole number is whole, since beyond the doubles with a fraction there is
2⁵². -/
theorem Closest.dvd_units {magnitude n : Nat} (h : Closest infinite magnitude (n * unitsPerOne)) :
    unitsPerOne ∣ units magnitude := by
  rcases Nat.lt_or_ge n (2 ^ 53) with small | large
  · exact ⟨n, (h.units_eq small).trans (Nat.mul_comm _ _)⟩
  · have power : units (1075 * leastNormal) = 2 ^ 52 * unitsPerOne := units_pow 0
    have far : 1075 * leastNormal ≤ magnitude := by
      by_contra below
      have less := cast_units_lt (Nat.not_le.mp below)
      have within : (units (1075 * leastNormal) : ℚ) ≤ n * unitsPerOne := by
        have enough := Nat.mul_le_mul_right unitsPerOne ((by decide : 2 ^ 52 ≤ 2 ^ 53).trans large)
        rw [power]
        exact_mod_cast enough
      have closer := h.closest (1075 * leastNormal) (by decide)
      rw [abs_sub_comm, abs_of_nonneg (by linarith), abs_sub_comm, abs_of_nonneg (by linarith)]
        at closer
      linarith
    rw [unitsPerOne_eq]
    exact @pow_dvd_units magnitude 1074 far

theorem IsNearest.exists_whole {x : Double} {n : Nat} (h : x.IsNearest (sign x.negative * n)) :
    ∃ whole : ℤ, x.rational = whole :=
  exists_rational_eq h.closest_magnitude.dvd_units

theorem cast_toInt32 {x : Double} (notNaN : x.isNaN = false) {whole : ℤ}
    (same : x.rational = whole) :
    (x.toInt32 : ℚ) = max (-0x80000000) (min x.rational 0x7FFFFFFF) := by
  rw [toInt32_of_rational notNaN same, same]
  push_cast
  rfl

/-- Rounding takes no number below a double that it is not below. -/
theorem IsNearest.le_rational {x limit : Double} {number : ℚ} (nearest : x.IsNearest number)
    (notNaN : limit.isNaN = false) (le : limit.rational ≤ number) :
    limit.rational ≤ x.rational := by
  have closer := nearest.closest limit notNaN
  rw [abs_sub_comm limit.rational, abs_of_nonneg (sub_nonneg.mpr le)] at closer
  linarith [(abs_le.mp closer).1]

/-- Rounding takes no number above a double that it is not above. -/
theorem IsNearest.rational_le {x limit : Double} {number : ℚ} (nearest : x.IsNearest number)
    (notNaN : limit.isNaN = false) (le : number ≤ limit.rational) :
    x.rational ≤ limit.rational := by
  have closer := nearest.closest limit notNaN
  rw [abs_of_nonneg (sub_nonneg.mpr le)] at closer
  linarith [(abs_le.mp closer).2]

/-- A whole number that was rounded to a whole double is clamped as if it had not been: the limits
are doubles, so rounding does not move it across them, and between them all whole numbers are. -/
theorem IsNearest.toInt32_eq {x : Double} {number whole : ℤ} (nearest : x.IsNearest number)
    (same : x.rational = whole) : x.toInt32 = max (-0x80000000) (min number 0x7FFFFFFF) := by
  rw [toInt32_of_rational nearest.notNaN same]
  have above {limit : ℤ} (small : limit.natAbs < 2 ^ 53) (le : limit ≤ number) : limit ≤ whole := by
    obtain ⟨y, notNaN, value⟩ := exists_rational_eq_whole small
    have kept := nearest.le_rational notNaN (by rw [value]; exact_mod_cast le)
    rw [value, same] at kept
    exact_mod_cast kept
  have below {limit : ℤ} (small : limit.natAbs < 2 ^ 53) (le : number ≤ limit) : whole ≤ limit := by
    obtain ⟨y, notNaN, value⟩ := exists_rational_eq_whole small
    have kept := nearest.rational_le notNaN (by rw [value]; exact_mod_cast le)
    rw [value, same] at kept
    exact_mod_cast kept
  rcases Int.lt_or_le number (-0x80000000) with low | inside
  · have := below (by decide) low.le
    omega
  · rcases Int.lt_or_le 0x7FFFFFFF number with high | within
    · have := above (by decide) high.le
      omega
    · have kept := nearest.rational_eq (by omega)
      rw [same, Int.cast_inj] at kept
      rw [kept]

end Double

namespace Numeral

/-- An integer writes its digits. -/
theorem rational_of_isInteger {n : Numeral} (integer : n.isInteger) :
    n.rational = Double.sign (n.sign == some '-') * digitsValue n.whole := by
  obtain ⟨sign, whole, fraction, exponent⟩ := n
  obtain ⟨rfl, rfl⟩ : fraction = [] ∧ exponent = none := by simpa [isInteger] using integer
  simp [rational, digitsValue]

theorem exists_whole {n : Numeral} (integer : n.isInteger) :
    ∃ whole : ℤ, n.value.rational = whole := by
  have nearest := n.isNearest_value
  rw [rational_of_isInteger integer, ← negative_value] at nearest
  exact nearest.exists_whole

/-- The integer that a sign and the digits behind it write. -/
def integer (n : Numeral) : ℤ :=
  if n.sign = some '-' then -(digitsValue n.whole : ℤ) else digitsValue n.whole

theorem rational_eq_integer {n : Numeral} (isInteger : n.isInteger) : n.rational = n.integer := by
  rw [rational_of_isInteger isInteger, integer, Double.sign]
  by_cases negative : n.sign = some '-'
  · simp [negative]
  · simp [negative]

theorem toInt32_value {n : Numeral} (isInteger : n.isInteger) :
    n.value.toInt32 = max (-0x80000000) (min n.integer 0x7FFFFFFF) := by
  obtain ⟨whole, same⟩ := exists_whole isInteger
  have nearest := n.isNearest_value
  rw [rational_eq_integer isInteger] at nearest
  exact nearest.toInt32_eq same

theorem text_of_isInteger {n : Numeral} (isInteger : n.isInteger) :
    n.text = n.sign.toList ++ n.whole := by
  obtain ⟨sign, whole, fraction, exponent⟩ := n
  obtain ⟨rfl, rfl⟩ : fraction = [] ∧ exponent = none := by
    simpa [Numeral.isInteger] using isInteger
  simp [text]

end Numeral

namespace Lexeme

theorem exists_payload (n : Numeral) (behind : Text) :
    ∃ unit, (readNumeric n behind).lexeme.numeric = some (payload n unit) := by
  simp only [readNumeric]
  split
  · exact ⟨none, rfl⟩
  · split
    · exact ⟨_, rfl⟩
    · exact ⟨none, rfl⟩

@[simp] theorem numeric_readIdentLike (text : Text) :
    (readIdentLike text).lexeme.numeric = none := by
  simp only [readIdentLike, readUrl]
  split
  · split
    · split <;> rfl
    · rfl
  · rfl

/-- Only numbers have a payload. -/
theorem kind_of_payload {text : Text} {number : Numeric}
    (payload : (read text).lexeme.numeric = some number) :
    (read text).lexeme.kind ∈ [Kind.number, .percentage, .dimension] := by
  have reading := reading_read text
  generalize read text = scanned at payload reading ⊢
  cases reading with
  | numeric => exact kind_readNumeric _ _
  | identLike =>
      rw [numeric_readIdentLike] at payload
      cases payload
  | _ => cases payload

/-- The payload of a lexeme is that of a numeral in front of it. -/
theorem exists_numeral_of_payload {text : Text} {number : Numeric}
    (payload : (read text).lexeme.numeric = some number) :
    ∃ (n : Numeral) (behind : Text) (unit : Option Text),
      Numeral.read text = some (n, behind) ∧ number = Lexeme.payload n unit := by
  obtain ⟨⟨n, behind⟩, hread⟩ := exists_read_of_kind (kind_of_payload payload)
  obtain ⟨unit, found⟩ := exists_payload n behind
  rw [← read_of_read_numeral hread, payload] at found
  exact ⟨n, behind, unit, hread, Option.some.inj found⟩

/-- A lexeme covers the numeral that it starts with. -/
theorem isPrefix_of_read_numeral {text behind : Text} {n : Numeral}
    (hread : Numeral.read text = some (n, behind)) (start : Position) :
    n.text <+: ((read text).token text start).representation := by
  obtain ⟨split, -, -⟩ := Numeral.read_eq_some_iff.mp hread
  have whole := Scanned.representation_append text start
  have fewer := length_readNumeric_le n behind
  rw [← read_of_read_numeral hread] at fewer
  have lengths := congrArg List.length (whole.trans split)
  rw [List.length_append, List.length_append] at lengths
  exact List.prefix_of_prefix_length_le ⟨behind, split.symm⟩ ⟨_, whole⟩ (by omega)

end Lexeme

/-- The numbers in the tokens of a text are those of numerals. -/
theorem exists_numeral {input : Text} {token : Token} (mem : token ∈ tokenize input)
    (numeric : token.kind ∈ [Kind.number, .percentage, .dimension]) :
    ∃ (n : Numeral) (unit : Option Text), token.numeric = some (Lexeme.payload n unit) := by
  obtain ⟨text, place, -, rfl⟩ := exists_read_of_numeric mem numeric
  obtain ⟨⟨n, behind⟩, hread⟩ := Lexeme.exists_read_of_kind numeric
  obtain ⟨unit, payload⟩ := Lexeme.exists_payload n behind
  rw [← Lexeme.read_of_read_numeral hread] at payload
  exact ⟨n, unit, payload⟩

/-- A text that is a numeral as a whole is one number. -/
theorem number_mem_tokenize {text : Text} {n : Numeral} (hread : Numeral.read text = some (n, [])) :
    ⟨⟨.number, text, some (Lexeme.payload n none), false⟩, text, .start⟩ ∈ tokenize text := by
  obtain ⟨whole, wf, -⟩ := Numeral.read_eq_some_iff.mp hread
  have normal := Lexeme.closes_number.isNormal wf
  rw [← whole] at normal
  rw [List.append_nil] at whole
  have mem := mem_tokenize (whole ▸ Numeral.text_ne_nil wf) normal
  rw [Lexeme.read_of_read_numeral hread, Lexeme.readNumeric_number n (by decide) (by decide),
    Scanned.token, ← whole] at mem
  simpa using mem

/-- An integer is read back as an integer with its sign, clamped to the range of 32-bit integers. So
its value is the same if it lies in that range, and only then. -/
theorem tokenize_css_integer {input : Text} {token : Token} {old : Numeric}
    (mem : token ∈ tokenize input) (numeric : token.kind ∈ [Kind.number, .percentage, .dimension])
    (payload : token.numeric = some old) (integer : old.isInteger) :
    ∃ (again : Token) (new : Numeric),
      tokenize token.css = [again, endToken (.after .start token.css)] ∧
        again.kind = token.kind ∧ again.numeric = some new ∧ new.isInteger ∧
        new.value.negative = old.value.negative ∧
        new.value.rational = max (-0x80000000) (min old.value.rational 0x7FFFFFFF) ∧
        (new.value = old.value ↔
          -0x80000000 ≤ old.value.rational ∧ old.value.rational ≤ 0x7FFFFFFF) := by
  obtain ⟨p, n, value, found, isNumber, -, written, again⟩ := exists_tokenize_css mem numeric
  obtain rfl : p = old := Option.some.inj (found.symm.trans payload)
  obtain ⟨read, unit, hread⟩ := exists_numeral mem numeric
  obtain ⟨whole, same⟩ : ∃ whole : ℤ, p.value.rational = whole := by
    obtain rfl : Lexeme.payload read unit = p := Option.some.inj (hread.symm.trans payload)
    exact Numeral.exists_whole integer
  obtain ⟨isInteger, rational⟩ := written.integer integer
  have clamped : n.value.rational = max (-0x80000000) (min p.value.rational 0x7FFFFFFF) := by
    have range := Double.toInt32_range p.value
    have nearest := n.isNearest_value
    rw [rational] at nearest
    rw [nearest.rational_eq (by omega), Double.cast_toInt32 isNumber.notNaN same]
  refine ⟨_, _, again, rfl, rfl, isInteger, written.negative, clamped, fun kept => ?_,
    fun range => ?_⟩
  · have unmoved : n.value.rational = p.value.rational := congrArg Double.rational kept
    rw [clamped] at unmoved
    rw [← unmoved]
    exact ⟨le_max_left _ _, max_le (by norm_num) (min_le_right _ _)⟩
  · refine Double.eq_of_rational_eq written.negative ?_
    rw [Lexeme.payload, clamped, min_eq_left range.2, max_eq_right range.1]

/-- `3000000000` is beyond the range, and is read back as the last integer in it. -/
theorem tokenize_css_integer_clamped :
    let many : Numeric := ⟨⟨false, 0x41E65A0BC0000000, by decide⟩, true, false, none⟩
    let text : Text := '3' :: List.replicate 9 '0'
    let token : Token := ⟨⟨.number, text, some many, false⟩, text, .start⟩
    token ∈ tokenize text ∧ many.isInteger ∧
      ∃ (again : Token) (new : Numeric),
        tokenize token.css = [again, endToken (.after .start token.css)] ∧
          again.kind = .number ∧ again.numeric = some new ∧ new.isInteger ∧
          new.value.rational = 2147483647 ∧ new.value ≠ many.value := by
  intro many text token
  have numeral : Numeral.read text = some (⟨none, text, [], none⟩, []) := by decide
  have value : Numeral.value ⟨none, text, [], none⟩ = many.value := by decide +kernel
  have mem : token ∈ tokenize text := by
    have number := number_mem_tokenize numeral
    rw [Lexeme.payload, value] at number
    exact number
  have units : Double.units many.value.magnitude = 3000000000 * Double.unitsPerOne := by
    decide +kernel
  have number : many.value.rational = 3000000000 := by
    have one := Double.cast_unitsPerOne_pos.ne'
    rw [Double.rational, units]
    push_cast
    rw [mul_div_cancel_right₀ _ one]
    norm_num [many, Double.sign]
  obtain ⟨again, new, whole, kind, numeric, isInteger, -, clamped, kept⟩ :=
    tokenize_css_integer mem (by decide) rfl rfl
  rw [number] at clamped kept
  norm_num at clamped kept
  exact ⟨mem, rfl, again, new, whole, kind, numeric, isInteger, clamped, kept⟩

namespace TokenStream

/-- The integer of a token is the one that its sign and digits write, clamped to the range of 32-bit
integers, however many digits there are and wherever they round to. What is no integer has none. -/
theorem next_clamps_integer {stream : TokenStream} {token : Token} {number : Numeric}
    (given : stream.next.result = .ok token) (payload : token.numeric = some number) :
    ∃ n : Numeral, n.WellFormed ∧
      Numeral.IsLongestPrefix Numeral.grammar n.text token.representation ∧
      (number.isInteger → n.text = n.sign.toList ++ n.whole ∧
        number.intValue? = some (max (-0x80000000) (min n.integer 0x7FFFFFFF))) ∧
      (number.isInteger = false → number.intValue? = none) := by
  rw [token_of_next given] at payload ⊢
  obtain ⟨n, behind, unit, hread, rfl⟩ := Lexeme.exists_numeral_of_payload payload
  obtain ⟨-, wf, -⟩ := Numeral.read_eq_some_iff.mp hread
  have longest := Numeral.isLongestPrefix_of_read hread
  have inside := Lexeme.isPrefix_of_read_numeral hread stream.reader.begin.position
  have whole := Scanned.representation_append stream.reader.begin.text stream.reader.begin.position
  refine ⟨n, wf, ⟨longest.mem, inside, fun other mem isPrefix => ?_⟩,
    fun integer => ⟨Numeral.text_of_isInteger integer, ?_⟩, fun decimal => ?_⟩
  · exact longest.longest other mem (isPrefix.trans ⟨_, whole⟩)
  · rw [Numeric.intValue?, if_pos integer]
    exact congrArg some (Numeral.toInt32_value integer)
  · rw [Numeric.intValue?, decimal]
    rfl

/-- Four hundred digits round to infinity, and are clamped like any integer beyond the range. -/
theorem next_clamps_integer_infinite :
    let text : Text := '-' :: List.replicate 400 '9'
    let infinite : Numeric := ⟨.infinity true, true, true, none⟩
    let token : Token := ⟨⟨.number, text, some infinite, false⟩, text, .start⟩
    (ofSource (.ofText text) .discarding).next.result = .ok token ∧
      infinite.intValue? = some (-0x80000000) := by
  intro text infinite token
  have given : (ofSource (.ofText text) .discarding).next.result = .ok token := by decide +kernel
  have hread : Numeral.read text = some (⟨some '-', List.replicate 400 '9', [], none⟩, []) := by
    decide +kernel
  obtain ⟨-, wf, -⟩ := Numeral.read_eq_some_iff.mp hread
  obtain ⟨n, nwf, longest, integer, -⟩ := next_clamps_integer given rfl
  obtain ⟨-, value⟩ := integer rfl
  obtain rfl := Numeral.eq_of_text_eq nwf wf
    (longest.unique (Numeral.isLongestPrefix_of_read hread))
  refine ⟨given, value.trans ?_⟩
  decide +kernel

end TokenStream

end CssSyntax
