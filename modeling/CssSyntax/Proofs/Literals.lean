import CssSyntax.Proofs.Glyphs
import CssSyntax.Proofs.Rounding
import CssSyntax.Proofs.Streams
import Mathlib.Computability.Language

/-!
The grammar of numbers. A number starts wherever the grammar has some prefix of the text, and it is
the longest of them; its value is the double nearest to the number that it writes, and what stands
behind it makes it a percentage, a dimension or neither.
-/

namespace CssSyntax

open Text
open scoped Computability

namespace Numeral

/-- Single code points of a class. -/
def oneOf (p : Char → Bool) : Language Char := {word | ∃ c, p c ∧ word = [c]}

/-- What may be missing. -/
def optional (part : Language Char) : Language Char := 1 + part

def signs : Language Char := oneOf fun c => c == '+' || c == '-'

def digits : Language Char := oneOf Char.isDigit * (oneOf Char.isDigit)∗

def fractions : Language Char := oneOf (· == '.') * digits

def exponents : Language Char := oneOf (fun c => c == 'e' || c == 'E') * (optional signs * digits)

/-- The grammar `[+-]?([0-9]+(\.[0-9]+)?|\.[0-9]+)([eE][+-]?[0-9]+)?`. -/
def grammar : Language Char :=
  optional signs * (digits * optional fractions + fractions) * optional exponents

/-- A prefix of a text that belongs to a language, and of those the longest. -/
structure IsLongestPrefix (language : Language Char) (front text : Text) : Prop where
  mem : front ∈ language
  isPrefix : front <+: text
  longest : ∀ other ∈ language, other <+: text → other.length ≤ front.length

theorem IsLongestPrefix.unique {language : Language Char} {front other text : Text}
    (h : IsLongestPrefix language front text) (h' : IsLongestPrefix language other text) :
    front = other := by
  have shorter := h.longest other h'.mem h'.isPrefix
  exact (List.prefix_of_prefix_length_le h.isPrefix h'.isPrefix
    (h'.longest front h.mem h.isPrefix)).eq_of_length_le shorter

theorem mem_optional {part : Language Char} {word : Text} :
    word ∈ optional part ↔ word = [] ∨ word ∈ part := by
  rw [optional, Language.mem_add, Language.mem_one]

theorem flatten_singletons (word : Text) : (word.map fun c => [c]).flatten = word := by
  induction word with
  | nil => rfl
  | cons c word ih => exact congrArg (c :: ·) ih

@[simp] theorem mem_digits {word : Text} : word ∈ digits ↔ word ≠ [] ∧ ∀ c ∈ word, c.isDigit := by
  rw [digits, Language.mem_mul]
  constructor
  · rintro ⟨_, ⟨first, digit, rfl⟩, _, more, rfl⟩
    obtain ⟨parts, rfl, each⟩ := Language.mem_kstar.mp more
    refine ⟨by simp, fun c mem => ?_⟩
    rcases List.mem_cons.mp mem with rfl | mem
    · exact digit
    · obtain ⟨part, hpart, mem⟩ := List.mem_flatten.mp mem
      obtain ⟨d, digit, rfl⟩ := each part hpart
      rwa [List.mem_singleton.mp mem]
  · rintro ⟨nonempty, all⟩
    obtain ⟨first, more, rfl⟩ := List.exists_cons_of_ne_nil nonempty
    obtain ⟨digit, all⟩ := List.forall_mem_cons.mp all
    refine ⟨[first], ⟨first, digit, rfl⟩, more, ?_, rfl⟩
    refine Language.mem_kstar.mpr ⟨more.map fun c => [c], (flatten_singletons more).symm, ?_⟩
    · intro part hpart
      obtain ⟨c, mem, rfl⟩ := List.mem_map.mp hpart
      exact ⟨c, all c mem, rfl⟩

theorem mem_optional_signs {word : Text} :
    word ∈ optional signs ↔ ∃ sign, IsSign sign ∧ word = sign.toList := by
  rw [mem_optional]
  constructor
  · rintro (rfl | ⟨c, isSign, rfl⟩)
    · exact ⟨none, by simp [IsSign], rfl⟩
    · exact ⟨some c, by simpa [IsSign] using isSign, rfl⟩
  · rintro ⟨sign, isSign, rfl⟩
    cases sign with
    | none => exact .inl rfl
    | some c => exact .inr ⟨c, by simpa [IsSign] using isSign, rfl⟩

theorem mem_exponents {word : Text} :
    word ∈ exponents ↔ ∃ e : Exponent, e.WellFormed ∧ word = e.text := by
  rw [exponents, Language.mem_mul]
  constructor
  · rintro ⟨_, ⟨mark, isMark, rfl⟩, behind, hbehind, rfl⟩
    obtain ⟨_, hsign, run, hrun, rfl⟩ := Language.mem_mul.mp hbehind
    obtain ⟨sign, isSign, rfl⟩ := mem_optional_signs.mp hsign
    obtain ⟨nonempty, all⟩ := mem_digits.mp hrun
    exact ⟨⟨mark, sign, run⟩, ⟨by simpa using isMark, isSign, all, nonempty⟩, rfl⟩
  · rintro ⟨e, wf, rfl⟩
    refine ⟨[e.mark], ⟨e.mark, by simpa using wf.mark, rfl⟩, e.sign.toList ++ e.digits, ?_, rfl⟩
    exact Language.append_mem_mul (mem_optional_signs.mpr ⟨e.sign, wf.sign, rfl⟩)
      (mem_digits.mpr ⟨wf.some_digit, wf.digits⟩)

theorem mem_fractions {word : Text} :
    word ∈ fractions ↔ ∃ run, run ≠ [] ∧ (∀ c ∈ run, c.isDigit) ∧ word = '.' :: run := by
  rw [fractions, Language.mem_mul]
  constructor
  · rintro ⟨_, ⟨point, isPoint, rfl⟩, run, hrun, rfl⟩
    obtain ⟨nonempty, all⟩ := mem_digits.mp hrun
    exact ⟨run, nonempty, all, by simpa using isPoint⟩
  · rintro ⟨run, nonempty, all, rfl⟩
    exact ⟨['.'], ⟨'.', rfl, rfl⟩, run, mem_digits.mpr ⟨nonempty, all⟩, rfl⟩

/-- The digits and the point in the middle of a numeral. -/
theorem mem_middle {word : Text} :
    word ∈ digits * optional fractions + fractions ↔
      ∃ whole fraction : Text, (∀ c ∈ whole, c.isDigit) ∧ (∀ c ∈ fraction, c.isDigit) ∧
        (whole ≠ [] ∨ fraction ≠ []) ∧
        word = whole ++ if fraction = [] then [] else '.' :: fraction := by
  rw [Language.mem_add, Language.mem_mul]
  constructor
  · rintro (⟨whole, hwhole, tail, htail, rfl⟩ | alone)
    · obtain ⟨nonempty, all⟩ := mem_digits.mp hwhole
      rcases mem_optional.mp htail with rfl | found
      · exact ⟨whole, [], all, by simp, .inl nonempty, by simp⟩
      · obtain ⟨run, more, fractionDigits, rfl⟩ := mem_fractions.mp found
        exact ⟨whole, run, all, fractionDigits, .inl nonempty, by rw [if_neg more]⟩
    · obtain ⟨run, more, fractionDigits, rfl⟩ := mem_fractions.mp alone
      exact ⟨[], run, by simp, fractionDigits, .inr more, by rw [if_neg more]; rfl⟩
  · rintro ⟨whole, fraction, all, fractionDigits, someDigit, rfl⟩
    by_cases noFraction : fraction = []
    · have nonempty := someDigit.resolve_right (not_not_intro noFraction)
      rw [if_pos noFraction]
      exact .inl ⟨whole, mem_digits.mpr ⟨nonempty, all⟩, [], mem_optional.mpr (.inl rfl), rfl⟩
    · have found : '.' :: fraction ∈ fractions :=
        mem_fractions.mpr ⟨_, noFraction, fractionDigits, rfl⟩
      rw [if_neg noFraction]
      by_cases noWhole : whole = []
      · rw [noWhole]
        exact .inr found
      · exact .inl ⟨whole, mem_digits.mpr ⟨noWhole, all⟩, _, mem_optional.mpr (.inr found), rfl⟩

/-- The grammar has exactly the spellings of numerals. -/
theorem mem_grammar_iff {word : Text} :
    word ∈ grammar ↔ ∃ n : Numeral, n.WellFormed ∧ n.text = word := by
  rw [grammar, Language.mem_mul]
  constructor
  · rintro ⟨front, hfront, tail, htail, rfl⟩
    obtain ⟨_, hsign, _, hmiddle, rfl⟩ := Language.mem_mul.mp hfront
    obtain ⟨sign, isSign, rfl⟩ := mem_optional_signs.mp hsign
    obtain ⟨whole, fraction, all, fractionDigits, someDigit, rfl⟩ := mem_middle.mp hmiddle
    rcases mem_optional.mp htail with rfl | found
    · refine ⟨⟨sign, whole, fraction, none⟩, ⟨isSign, all, fractionDigits, someDigit, by simp⟩, ?_⟩
      simp [text]
    · obtain ⟨e, wf, rfl⟩ := mem_exponents.mp found
      refine ⟨⟨sign, whole, fraction, some e⟩,
        ⟨isSign, all, fractionDigits, someDigit, by simpa using wf⟩, ?_⟩
      simp [text]
  · rintro ⟨⟨sign, whole, fraction, exponent⟩, wf, rfl⟩
    refine ⟨sign.toList ++ (whole ++ if fraction = [] then [] else '.' :: fraction), ?_,
      (exponent.map Exponent.text).getD [], ?_, by simp [text]⟩
    · exact Language.append_mem_mul (mem_optional_signs.mpr ⟨sign, wf.sign, rfl⟩)
        (mem_middle.mpr ⟨whole, fraction, wf.whole, wf.fraction, wf.some_digit, rfl⟩)
    · cases exponent with
      | none => exact mem_optional.mpr (.inl rfl)
      | some e => exact mem_optional.mpr (.inr (mem_exponents.mpr ⟨e, wf.exponent e rfl, rfl⟩))

/-- A spelling is that of one numeral. -/
theorem eq_of_text_eq {n m : Numeral} (wf : n.WellFormed) (wf' : m.WellFormed)
    (same : n.text = m.text) : n = m := by
  have hn := read_text_append wf (endsBefore_nil n)
  rw [same, read_text_append wf' (endsBefore_nil m)] at hn
  exact (congrArg Prod.fst (Option.some.inj hn)).symm

/-- A numeral that something behind it goes on is the beginning of a longer one. -/
theorem exists_longer {n : Numeral} (wf : n.WellFormed) {rest : Text} (more : ¬n.EndsBefore rest) :
    ∃ (longer : Numeral) (behind : Text), longer.WellFormed ∧
      n.text ++ rest = longer.text ++ behind ∧ behind.length < rest.length := by
  obtain ⟨sign, whole, fraction, exponent⟩ := n
  by_cases stops : StopsAt Char.isDigit rest
  · cases exponent with
    | some e => exact absurd ⟨stops, by simp, by simp⟩ more
    | none =>
        cases hexponent : Exponent.read rest with
        | some found =>
            -- An exponent follows.
            obtain ⟨e, behind⟩ := found
            obtain ⟨rfl, ewf, -⟩ := Exponent.read_eq_some_iff.mp hexponent
            refine ⟨⟨sign, whole, fraction, some e⟩, behind,
              ⟨wf.sign, wf.whole, wf.fraction, wf.some_digit, by simpa using ewf⟩, ?_, ?_⟩
            · simp [text]
            · simp only [Exponent.text, List.cons_append, List.length_cons, List.length_append]
              omega
        | none =>
            by_cases noFraction : fraction = []
            · -- A point and digits follow.
              subst noFraction
              have point : (readFraction rest).1 ≠ [] := by
                intro missing
                refine more ⟨stops, fun _ => hexponent, fun _ _ => ?_⟩
                exact Prod.ext missing (readFraction_of_eq_nil missing)
              obtain ⟨fractionDigits, split, -⟩ := readFraction_spec rest
              rw [if_neg point] at split
              refine ⟨⟨sign, whole, (readFraction rest).1, none⟩, (readFraction rest).2,
                ⟨wf.sign, wf.whole, fractionDigits, .inr point, by simp⟩, ?_, ?_⟩
              · simpa [text, point] using split
              · have := congrArg List.length split
                simp only [List.cons_append, List.length_cons, List.length_append] at this
                omega
            · exact absurd
                ⟨stops, fun _ => hexponent, fun _ missing => absurd missing noFraction⟩ more
  · -- Another digit follows.
    obtain ⟨c, behind, rfl, digit⟩ : ∃ c behind, rest = c :: behind ∧ c.isDigit := by
      cases rest with
      | nil => exact absurd (stopsAt_nil _) stops
      | cons c behind => exact ⟨c, behind, rfl, by simpa using stops⟩
    have snoc {run : Text} (all : ∀ d ∈ run, d.isDigit) : ∀ d ∈ run ++ [c], d.isDigit := by
      intro d mem
      rcases List.mem_append.mp mem with mem | mem
      · exact all d mem
      · rwa [List.mem_singleton.mp mem]
    cases exponent with
    | some e =>
        have ewf := wf.exponent e rfl
        refine ⟨⟨sign, whole, fraction, some { e with digits := e.digits ++ [c] }⟩, behind,
          ⟨wf.sign, wf.whole, wf.fraction, wf.some_digit, ?_⟩,
          by simp [text, Exponent.text], by simp⟩
        rintro _ ⟨⟩
        exact ⟨ewf.mark, ewf.sign, snoc ewf.digits, by simp⟩
    | none =>
        by_cases noFraction : fraction = []
        · refine ⟨⟨sign, whole ++ [c], [], none⟩, behind,
            ⟨wf.sign, snoc wf.whole, by simp, .inl (by simp), by simp⟩, ?_, by simp⟩
          simp [text, noFraction]
        · refine ⟨⟨sign, whole, fraction ++ [c], none⟩, behind,
            ⟨wf.sign, wf.whole, snoc wf.fraction, .inr (by simp), by simp⟩, ?_, by simp⟩
          simp [text, noFraction]

/-- Where the grammar has a prefix of a text, a numeral is read that is as long or longer. -/
theorem exists_read {n : Numeral} (wf : n.WellFormed) (rest : Text) :
    ∃ found, read (n.text ++ rest) = some found ∧ found.2.length ≤ rest.length := by
  induction hlength : rest.length using Nat.strongRecOn generalizing n rest with
  | ind length ih =>
      by_cases ends : n.EndsBefore rest
      · exact ⟨(n, rest), read_text_append wf ends, hlength.le⟩
      · obtain ⟨longer, behind, longerWf, split, shorter⟩ := exists_longer wf ends
        obtain ⟨found, hread, le⟩ := ih behind.length (hlength ▸ shorter) longerWf behind rfl
        exact ⟨found, split ▸ hread, by omega⟩

/-- A numeral is read exactly where the grammar has some prefix of the text. -/
theorem exists_read_iff {text : Text} :
    (∃ found, read text = some found) ↔ ∃ front ∈ grammar, front <+: text := by
  constructor
  · rintro ⟨⟨n, rest⟩, hread⟩
    obtain ⟨rfl, wf, -⟩ := read_eq_some_iff.mp hread
    exact ⟨n.text, mem_grammar_iff.mpr ⟨n, wf, rfl⟩, List.prefix_append ..⟩
  · rintro ⟨front, mem, rest, rfl⟩
    obtain ⟨n, wf, rfl⟩ := mem_grammar_iff.mp mem
    obtain ⟨found, hread, -⟩ := exists_read wf rest
    exact ⟨found, hread⟩

/-- The numeral that is read is the longest prefix that the grammar has. -/
theorem isLongestPrefix_of_read {text rest : Text} {n : Numeral} (h : read text = some (n, rest)) :
    IsLongestPrefix grammar n.text text := by
  obtain ⟨split, wf, -⟩ := read_eq_some_iff.mp h
  refine ⟨mem_grammar_iff.mpr ⟨n, wf, rfl⟩, ⟨rest, split.symm⟩, ?_⟩
  rintro other mem ⟨behind, hother⟩
  obtain ⟨m, mwf, rfl⟩ := mem_grammar_iff.mp mem
  obtain ⟨found, hread, le⟩ := exists_read mwf behind
  rw [hother, h] at hread
  cases hread
  have le : rest.length ≤ behind.length := le
  have lengths := congrArg List.length (hother.trans split)
  simp only [List.length_append] at lengths
  omega

/-- The number that a numeral writes. -/
def rational (n : Numeral) : ℚ :=
  Double.sign (n.sign == some '-') *
    ((digitsValue n.whole + digitsValue n.fraction / 10 ^ n.fraction.length) *
      10 ^ (n.exponent.map Exponent.value).getD 0)

/-- The digits of a numeral as one number, with a power of ten behind it. -/
theorem rational_eq (n : Numeral) : n.rational = Double.sign (n.sign == some '-') *
    ((digitsValue (n.whole ++ n.fraction) : ℚ) *
      10 ^ ((n.exponent.map Exponent.value).getD 0 - n.fraction.length)) := by
  rw [rational, digitsValue_append, zpow_sub₀ (by norm_num), zpow_natCast]
  push_cast
  field_simp

/-- The value of a numeral is the double nearest to the number that it writes. -/
theorem isNearest_value (n : Numeral) : n.value.IsNearest n.rational := by
  rw [rational_eq]
  exact Double.isNearest_ofDecimal _ _ _

@[simp] theorem negative_value (n : Numeral) : n.value.negative = (n.sign == some '-') :=
  Double.negative_ofDecimal _ _ _

/-- A sign is seen at the front of a numeral. -/
theorem head?_text {n : Numeral} (wf : n.WellFormed) {c : Char} (isSign : c = '+' ∨ c = '-') :
    n.text.head? = some c ↔ n.sign = some c := by
  obtain ⟨sign, whole, fraction, exponent⟩ := n
  cases sign with
  | some d => simp [text]
  | none =>
      have unsigned : ∀ d ∈ (text ⟨none, whole, fraction, exponent⟩).head?, d ≠ '+' ∧ d ≠ '-' := by
        intro d first
        cases whole with
        | nil =>
            have point : fraction ≠ [] := wf.some_digit.resolve_left (by simp)
            simp only [text, point, if_false] at first
            cases first
            decide
        | cons digit digits =>
            cases first
            obtain ⟨notPlus, notMinus, -⟩ := digit_not_sign (wf.whole d (by simp))
            exact ⟨notPlus, notMinus⟩
      refine ⟨fun first => ?_, by simp⟩
      obtain ⟨notPlus, notMinus⟩ := unsigned c first
      rcases isSign with rfl | rfl
      · exact absurd rfl notPlus
      · exact absurd rfl notMinus

theorem hasSign_iff {n : Numeral} (wf : n.WellFormed) :
    n.hasSign ↔ n.text.head? = some '+' ∨ n.text.head? = some '-' := by
  rw [head?_text wf (.inl rfl), head?_text wf (.inr rfl), hasSign, Option.isSome_iff_exists]
  constructor
  · rintro ⟨c, found⟩
    rw [found, Option.some.injEq, Option.some.injEq]
    exact wf.sign c found
  · rintro (plus | minus)
    · exact ⟨_, plus⟩
    · exact ⟨_, minus⟩

/-- An integer has neither a point nor the mark of an exponent. -/
theorem isInteger_iff {n : Numeral} (wf : n.WellFormed) :
    n.isInteger ↔ '.' ∉ n.text ∧ 'e' ∉ n.text ∧ 'E' ∉ n.text := by
  obtain ⟨sign, whole, fraction, exponent⟩ := n
  have notSign {c : Char} (other : c ≠ '+' ∧ c ≠ '-') : c ∉ sign := by
    intro mem
    rcases wf.sign c mem with rfl | rfl
    · exact other.1 rfl
    · exact other.2 rfl
  have notDigit {run : Text} (all : ∀ d ∈ run, d.isDigit) {c : Char} (other : c.isDigit = false) :
      c ∉ run := fun mem => by simp [all c mem] at other
  rw [isInteger, Bool.and_eq_true, beq_iff_eq, Option.isNone_iff_eq_none]
  constructor
  · rintro ⟨rfl, rfl⟩
    have absent {c : Char} (notASign : c ≠ '+' ∧ c ≠ '-') (notADigit : c.isDigit = false) :
        c ∉ text ⟨sign, whole, [], none⟩ := by
      simpa [text] using ⟨by simpa using notSign notASign, notDigit wf.whole notADigit⟩
    exact ⟨absent (by decide) (by decide), absent (by decide) (by decide),
      absent (by decide) (by decide)⟩
  · rintro ⟨noPoint, noMark, noCapital⟩
    constructor
    · by_contra point
      exact noPoint (by simp [text, point])
    · cases exponent with
      | none => rfl
      | some e =>
          rcases (wf.exponent e rfl).mark with mark | mark
          · exact absurd (by simp [text, Exponent.text, mark]) noMark
          · exact absurd (by simp [text, Exponent.text, mark]) noCapital

end Numeral

namespace Name

/-- The glyphs that names are made of. -/
def isPart : Glyph → Bool
  | .plain c => CodePoint.isName c
  | .escape _ => true
  | _ => false

/-- The name at the front of a text is the longest run of such glyphs. -/
theorem read_glyphs (text : Text) :
    (read text).1 = Glyph.values ((glyphs text).takeWhile isPart) ∧
      glyphs (read text).2 = (glyphs text).dropWhile isPart := by
  fun_induction read text with
  | case1 => simp [Glyph.values]
  | case2 c rest named inner ih =>
      have notEscape : c ≠ '\\' := by
        rintro rfl
        exact absurd named (by decide)
      have part : isPart (.plain c) := named
      rw [glyphs_of_plain notEscape, List.takeWhile_cons_of_pos part,
        List.dropWhile_cons_of_pos part]
      exact ⟨congrArg (c :: ·) ih.1, ih.2⟩
  | case3 rest e after hread inner notName ih =>
      rw [glyphs_of_escape hread, List.takeWhile_cons_of_pos rfl, List.dropWhile_cons_of_pos rfl,
        Glyph.values_escape hread]
      exact ⟨congrArg (e :: ·) ih.1, ih.2⟩
  | case4 rest hread =>
      have stops : isPart (if rest = [] then .stray else .continuation) = false := by
        split <;> rfl
      rw [glyphs_of_missing_escape hread, List.takeWhile_cons_of_neg (by simp [stops]),
        List.dropWhile_cons_of_neg (by simp [stops])]
      exact ⟨rfl, rfl⟩
  | case5 c rest notName notEscape =>
      have stops : ¬isPart (.plain c) := notName
      rw [glyphs_of_plain notEscape, List.takeWhile_cons_of_neg stops,
        List.dropWhile_cons_of_neg stops]
      exact ⟨rfl, rfl⟩

end Name

/-- What a payload says of the numeral that it is made from, by the spelling of the numeral. -/
structure Numeric.OfNumeral (payload : Numeric) (n : Numeral) : Prop where
  isInteger : payload.isInteger ↔ '.' ∉ n.text ∧ 'e' ∉ n.text ∧ 'E' ∉ n.text
  hasSign : payload.hasSign ↔ n.text.head? = some '+' ∨ n.text.head? = some '-'
  nearest : payload.value.IsNearest n.rational
  negative : payload.value.negative ↔ n.text.head? = some '-'

namespace Lexeme

theorem ofNumeral_payload {n : Numeral} (wf : n.WellFormed) (unit : Option Text) :
    (payload n unit).OfNumeral n := by
  refine ⟨Numeral.isInteger_iff wf, Numeral.hasSign_iff wf, n.isNearest_value, ?_⟩
  rw [Numeral.head?_text wf (.inr rfl), payload, Numeral.negative_value, beq_iff_eq]

/-- What a lexeme is that starts with a numeral, by what stands behind the numeral; `left` is what
stands behind the lexeme. -/
structure OfNumeral (lexeme : Lexeme) (n : Numeral) (payload : Numeric) (behind left : Text) :
    Prop where
  numeric : lexeme.numeric = some payload
  ofNumeral : payload.OfNumeral n
  percentage : lexeme.kind = .percentage ↔ behind.head? = some '%'
  dimension : lexeme.kind = .dimension ↔ (Lookahead.ofText behind).startsIdentifier
  of_percentage : lexeme.kind = .percentage →
    lexeme.value = n.text ++ ['%'] ∧ payload.unit = none ∧ behind = '%' :: left
  of_dimension : lexeme.kind = .dimension →
    ∃ unit, unit = Glyph.values ((glyphs behind).takeWhile Name.isPart) ∧
      lexeme.value = n.text ++ unit ∧ payload.unit = some unit ∧
      glyphs left = (glyphs behind).dropWhile Name.isPart
  of_number : lexeme.kind = .number →
    lexeme.value = n.text ∧ payload.unit = none ∧ behind = left

theorem ofNumeral_readNumeric {n : Numeral} (wf : n.WellFormed) (behind : Text) :
    ∃ payload, OfNumeral (readNumeric n behind).lexeme n payload behind
      (readNumeric n behind).rest := by
  by_cases percent : behind.head? = some '%'
  · obtain ⟨left, rfl⟩ := List.head?_eq_some_iff.mp percent
    have noUnit : ¬(Lookahead.ofText ('%' :: left)).startsIdentifier := by
      simp [Lookahead.ofText, Lookahead.startsIdentifier, CodePoint.isNameStart]
    rw [readNumeric_percentage]
    exact ⟨_, rfl, ofNumeral_payload wf none, by simp, by simp [noUnit],
      fun _ => ⟨rfl, rfl, rfl⟩, by simp, by simp⟩
  · by_cases identifier : (Lookahead.ofText behind).startsIdentifier
    · obtain ⟨unit, left⟩ := Name.read_glyphs behind
      rw [readNumeric_dimension n identifier]
      exact ⟨_, rfl, ofNumeral_payload wf _, by simp [percent], by simp [identifier],
        by simp, fun _ => ⟨_, unit, rfl, rfl, left⟩, by simp⟩
    · rw [readNumeric_number n percent identifier]
      exact ⟨_, rfl, ofNumeral_payload wf none, by simp [percent], by simp [identifier],
        by simp, by simp, fun _ => ⟨rfl, rfl, rfl⟩⟩

/-- Numerals start with what settles nothing on its own. -/
theorem open_of_numeral {c : Char} {rest : Text} {found : Numeral × Text}
    (h : Numeral.read (c :: rest) = some found) : Open c := by
  have starts := (Numeral.startsNumber_iff (c :: rest)).mpr (Option.isSome_of_eq_some h)
  by_cases digit : c.isDigit
  · exact open_of_isName (by simp [CodePoint.isName, digit])
  · have mark : c = '+' ∨ c = '-' ∨ c = '.' := by
      by_contra other
      obtain ⟨notPlus, notMinus, notPoint⟩ : c ≠ '+' ∧ c ≠ '-' ∧ c ≠ '.' := by
        simpa only [not_or] using other
      simp [Lookahead.ofText, Lookahead.startsNumber, notPlus, notMinus, notPoint, digit] at starts
    rcases mark with rfl | rfl | rfl <;> exact ⟨by decide, by decide, by decide⟩

/-- A numeral at the front of a text is what its lexeme starts with. -/
theorem read_of_read_numeral {text behind : Text} {n : Numeral}
    (h : Numeral.read text = some (n, behind)) : read text = readNumeric n behind := by
  cases text with
  | nil => cases h
  | cons c rest => exact read_of_numeral (open_of_numeral h) h

/-- No other lexemes are of the kinds of numbers. -/
theorem exists_read_of_kind {text : Text}
    (numeric : (read text).lexeme.kind ∈ [Kind.number, .percentage, .dimension]) :
    ∃ found, Numeral.read text = some found := by
  have other {kinds : List Kind} (kind : (read text).lexeme.kind ∈ kinds)
      (apart : kinds.all fun kind => kind ∉ [Kind.number, .percentage, .dimension]) : False := by
    simpa [numeric] using List.all_eq_true.mp apart _ kind
  generalize hread : read text = scanned at numeric other
  have reading := reading_read text
  rw [hread] at reading
  cases reading with
  | numeric _ found => exact ⟨_, found⟩
  | endOfInput | whitespace | cdc | comment | cdo | hash | atKeyword | delim =>
      exact absurd numeric (by simp [endOfInput, readComment, delimited])
  | string => exact (other (kind_readString ..) (by decide)).elim
  | symbol symbol => exact (other (kind_of_symbol symbol) (by decide)).elim
  | identLike => exact (other (kind_readIdentLike _) (by decide)).elim

/-- A lexeme is a number of some kind exactly where the grammar has a prefix of the text. -/
theorem kind_read_iff (text : Text) :
    (read text).lexeme.kind ∈ [Kind.number, .percentage, .dimension] ↔
      ∃ front ∈ Numeral.grammar, front ≠ [] ∧ front <+: text := by
  constructor
  · intro numeric
    obtain ⟨⟨n, behind⟩, hread⟩ := exists_read_of_kind numeric
    obtain ⟨rfl, wf, -⟩ := Numeral.read_eq_some_iff.mp hread
    exact ⟨n.text, Numeral.mem_grammar_iff.mpr ⟨n, wf, rfl⟩, Numeral.text_ne_nil wf,
      List.prefix_append ..⟩
  · rintro ⟨front, mem, -, isPrefix⟩
    obtain ⟨⟨n, behind⟩, hread⟩ := Numeral.exists_read_iff.mpr ⟨front, mem, isPrefix⟩
    rw [read_of_read_numeral hread]
    exact kind_readNumeric n behind

end Lexeme

namespace TokenStream

variable {stream : TokenStream}

/-- The next token is a number, a percentage or a dimension exactly where the grammar of numbers has
a prefix of the text; then the longest such prefix is its numeral, and the token is the one that the
numeral and the text behind it make. -/
theorem next_takes_longest_numeral (noFailures : stream.reader.input.source.failures = []) :
    let text := stream.reader.begin.text
    let left := stream.next.stream.reader.begin.text
    ∃ token, stream.next.result = .ok token ∧ token.representation ++ left = text ∧
      (token.kind ∈ [Kind.number, .percentage, .dimension] ↔
        ∃ front ∈ Numeral.grammar, front ≠ [] ∧ front <+: text) ∧
      (token.kind ∈ [Kind.number, .percentage, .dimension] →
        ∃ (n : Numeral) (payload : Numeric) (behind : Text),
          n.WellFormed ∧ text = n.text ++ behind ∧
            Numeral.IsLongestPrefix Numeral.grammar n.text text ∧
            token.OfNumeral n payload behind left) := by
  intro text left
  obtain ⟨reader, hnext, hrest, -, -⟩ := next_of_no_failures noFailures
  have split := Scanned.representation_append text stream.reader.begin.position
  have hleft : left = (Lexeme.read text).rest := by
    rw [← hrest]
    exact congrArg (fun step => step.stream.reader.begin.text) hnext
  rw [← hleft] at split
  refine ⟨_, congrArg Step.result hnext, split, Lexeme.kind_read_iff text, fun numeric => ?_⟩
  obtain ⟨⟨n, behind⟩, hread⟩ := Lexeme.exists_read_of_kind numeric
  obtain ⟨whole, wf, -⟩ := Numeral.read_eq_some_iff.mp hread
  obtain ⟨payload, ofNumeral⟩ := Lexeme.ofNumeral_readNumeric wf behind
  rw [← Lexeme.read_of_read_numeral hread, ← hleft] at ofNumeral
  exact ⟨n, payload, behind, wf, whole, Numeral.isLongestPrefix_of_read hread, ofNumeral⟩

/-- `+.5e-3e-` is a dimension: the second exponent has no digit, and is the unit. -/
theorem next_takes_longest_numeral_unit :
    let stream := ofSource (.ofText ['+', '.', '5', 'e', '-', '3', 'e', '-']) .discarding
    ∃ token payload, stream.next.result = .ok token ∧ token.kind = .dimension ∧
      token.value = ['+', '.', '5', 'e', '-', '3', 'e', '-'] ∧ token.numeric = some payload ∧
      payload.unit = some ['e', '-'] ∧ payload.value.IsNearest (5 / 10000) := by
  intro stream
  have noFailures : stream.reader.input.source.failures = [] := Source.failures_units _
  have text : stream.reader.begin.text = ['+', '.', '5', 'e', '-', '3', 'e', '-'] :=
    Normalizer.text_ofSource_ofText (by simp)
  have hread : Numeral.read ['+', '.', '5', 'e', '-', '3', 'e', '-'] =
      some (⟨some '+', [], ['5'], some ⟨'e', some '-', ['3']⟩⟩, ['e', '-']) := by decide
  have longest := Numeral.isLongestPrefix_of_read hread
  obtain ⟨spelled, wf, -⟩ := Numeral.read_eq_some_iff.mp hread
  obtain ⟨token, given, -, numeric, follows⟩ := next_takes_longest_numeral noFailures
  rw [text] at numeric follows
  obtain ⟨n, payload, behind, nwf, whole, isLongest, follows⟩ :=
    follows (numeric.mpr ⟨_, longest.mem, Numeral.text_ne_nil wf, longest.isPrefix⟩)
  obtain rfl := Numeral.eq_of_text_eq nwf wf (isLongest.unique longest)
  obtain rfl : behind = ['e', '-'] := List.append_cancel_left (whole.symm.trans spelled)
  have dimension : token.kind = .dimension := follows.dimension.mpr (by decide)
  obtain ⟨unit, hunit, value, hpayload, -⟩ := follows.of_dimension dimension
  have named : unit = ['e', '-'] := by
    have row : glyphs ['e', '-'] = [.plain 'e', .plain '-'] := by simp
    rw [hunit, row]
    decide
  have nearest := follows.ofNumeral.nearest
  rw [named] at value hpayload
  refine ⟨token, payload, given, dimension, value, follows.numeric, hpayload, ?_⟩
  have number : Numeral.rational ⟨some '+', [], ['5'], some ⟨'e', some '-', ['3']⟩⟩ =
      5 / 10000 := by
    have plus : ('+' : Char) ≠ '-' := by decide
    have whole : digitsValue [] = 0 := by decide
    have fraction : digitsValue ['5'] = 5 := by decide
    have exponent : Exponent.value ⟨'e', some '-', ['3']⟩ = -3 := by decide
    norm_num [Numeral.rational, Double.sign, plus, whole, fraction, exponent]
  exact number ▸ nearest

end TokenStream

end CssSyntax
