import CssSyntax.Lexeme
import CssSyntax.Proofs.Numerals
import CssSyntax.Proofs.Steps

/-!
How a lexeme starts decides how it is read. Each lemma gives the reading for one sort of start, with
the tests that come before it already settled.
-/

namespace CssSyntax

open CodePoint

namespace Numeral

theorem takeWhile_digit_ne_nil_iff (text : Text) :
    text.takeWhile Char.isDigit ≠ [] ↔ text.head?.any Char.isDigit := by
  cases text with
  | nil => simp
  | cons c rest => by_cases digit : c.isDigit <;> simp [digit]

theorem readFraction_ne_nil_iff (text : Text) :
    (readFraction text).1 ≠ [] ↔ text.head? = some '.' ∧ text[1]?.any Char.isDigit := by
  cases text with
  | nil => simp [readFraction]
  | cons c rest =>
      have digits := takeWhile_digit_ne_nil_iff rest
      simp only [readFraction]
      split
      · next found => simpa [found.1, found.2, List.head?_eq_getElem?] using digits.mp found.2
      · next missing =>
          simp only [ne_eq, not_true, false_iff, List.head?_cons, Option.some.injEq,
            List.getElem?_cons_succ, ← List.head?_eq_getElem?, ← digits]
          exact missing

end Numeral

namespace Exponent

/-- What the next three code points of a text say of an exponent at its start. -/
inductive Announced : Text → Prop where
  | signed {mark sign : Char} {rest : Text} (isMark : mark = 'e' ∨ mark = 'E')
      (isSign : sign = '+' ∨ sign = '-') (digit : rest.head?.any Char.isDigit) :
      Announced (mark :: sign :: rest)
  | unsigned {mark c : Char} {rest : Text} (isMark : mark = 'e' ∨ mark = 'E')
      (digit : c.isDigit) : Announced (mark :: c :: rest)
  | absent {text : Text} (unread : read text = none)
      (missing : text.head? = some 'e' ∨ text.head? = some 'E' →
        ¬((text[1]? = some '+' ∨ text[1]? = some '-') ∧ text[2]?.any Char.isDigit) ∧
          ¬text[1]?.any Char.isDigit) : Announced text

theorem not_sign_of_isDigit {c : Char} (digit : c.isDigit) : ¬(c = '+' ∨ c = '-') := by
  obtain ⟨notPlus, notMinus, _⟩ := digit_not_sign digit
  exact not_or.mpr ⟨notPlus, notMinus⟩

theorem read_signed {mark sign : Char} {rest : Text} (isMark : mark = 'e' ∨ mark = 'E')
    (isSign : sign = '+' ∨ sign = '-') (digit : rest.head?.any Char.isDigit) :
    read (mark :: sign :: rest) =
      some (⟨mark, some sign, rest.takeWhile Char.isDigit⟩, rest.dropWhile Char.isDigit) := by
  have digits := (Numeral.takeWhile_digit_ne_nil_iff rest).mpr digit
  simp [read, splitSign, isMark, isSign, digits]

theorem read_unsigned {mark c : Char} {rest : Text} (isMark : mark = 'e' ∨ mark = 'E')
    (digit : c.isDigit) :
    read (mark :: c :: rest) =
      some (⟨mark, none, c :: rest.takeWhile Char.isDigit⟩, rest.dropWhile Char.isDigit) := by
  simp [read, splitSign, not_sign_of_isDigit digit, isMark, digit]

theorem announced (text : Text) : Announced text := by
  match text with
  | [] => exact .absent rfl (by simp)
  | [mark] => exact .absent (by simp [read, splitSign]) (by simp)
  | mark :: c :: rest =>
      by_cases isMark : mark = 'e' ∨ mark = 'E'
      · by_cases digit : c.isDigit
        · exact .unsigned isMark digit
        · by_cases isSign : c = '+' ∨ c = '-'
          · by_cases behind : rest.head?.any Char.isDigit
            · exact .signed isMark isSign behind
            · have noDigits :=
                not_ne_iff.mp (mt (Numeral.takeWhile_digit_ne_nil_iff rest).mp behind)
              rw [List.head?_eq_getElem?] at behind
              refine .absent (by simp [read, splitSign, isSign, noDigits]) fun _ => ⟨?_, digit⟩
              exact fun signed => behind signed.2
          · refine .absent (by simp [read, splitSign, isSign, digit]) fun _ => ⟨?_, digit⟩
            exact fun signed => isSign (by simpa using signed.1)
      · exact .absent (by simp [read, isMark]) fun again => absurd (by simpa using again) isMark

end Exponent

namespace Numeral

/-- Digits come next, with or without a point before them. -/
theorem some_digit_iff (text : Text) :
    (text.takeWhile Char.isDigit ≠ [] ∨
        (readFraction (text.dropWhile Char.isDigit)).1 ≠ []) ↔
      text.head?.any Char.isDigit ∨ (text.head? = some '.' ∧ text[1]?.any Char.isDigit) := by
  rw [takeWhile_digit_ne_nil_iff]
  by_cases digit : text.head?.any Char.isDigit
  · simp [digit]
  · have stays : text.dropWhile Char.isDigit = text := by
      cases text with
      | nil => rfl
      | cons c rest => exact List.dropWhile_cons_of_neg (by simpa using digit)
    rw [stays, readFraction_ne_nil_iff]

theorem isSome_read_iff (text : Text) :
    (read text).isSome ↔ (splitSign text).2.head?.any Char.isDigit ∨
      ((splitSign text).2.head? = some '.' ∧ (splitSign text).2[1]?.any Char.isDigit) := by
  rw [← some_digit_iff, read]
  split
  · next noDigit => simp [noDigit.1, noDigit.2]
  · next found => split <;> simpa using not_and_or.mp found

/-- The lookahead that announces a number is right about it. -/
theorem startsNumber_iff (text : Text) :
    (Lookahead.ofText text).startsNumber ↔ (read text).isSome := by
  rw [isSome_read_iff]
  cases text with
  | nil => simp [Lookahead.ofText, Lookahead.startsNumber, splitSign]
  | cons c rest =>
      by_cases sign : c = '+' ∨ c = '-'
      · rcases sign with rfl | rfl <;>
          simp [Lookahead.ofText, Lookahead.startsNumber, splitSign, List.head?_eq_getElem?]
      · have unsigned : splitSign (c :: rest) = (none, c :: rest) := if_neg sign
        obtain ⟨notPlus, notMinus⟩ := not_or.mp sign
        rw [unsigned]
        by_cases point : c = '.'
        · subst point
          simp [Lookahead.ofText, Lookahead.startsNumber]
        · simp [Lookahead.ofText, Lookahead.startsNumber, point, notPlus, notMinus]

end Numeral

theorem Lookahead.eq_of_ofText {text : Text} {a b c : Char}
    (h : Lookahead.ofText text = ⟨some a, some b, some c⟩) :
    ∃ rest, text = a :: b :: c :: rest := by
  match text with
  | [] | [_] | [_, _] => simp [Lookahead.ofText] at h
  | d :: e :: f :: rest =>
      simp only [Lookahead.ofText, List.getElem?_cons_zero, List.getElem?_cons_succ,
        Lookahead.mk.injEq, Option.some.injEq] at h
      exact ⟨rest, by rw [h.1, h.2.1, h.2.2]⟩

namespace Lexeme

/-- A code point that settles nothing on its own. -/
structure Open (c : Char) : Prop where
  blank : isWhitespace c = false
  quote : ¬(c = '"' ∨ c = '\'')
  symbol : Kind.ofSymbol? c = none

theorem read_of_blank {c : Char} (blank : isWhitespace c) (rest : Text) :
    read (c :: rest) =
      { lexeme := { kind := .whitespace, value := c :: rest.takeWhile isWhitespace }
        rest := rest.dropWhile isWhitespace } := by
  simp [read, blank]

theorem read_of_quote {c : Char} (quote : c = '"' ∨ c = '\'') (rest : Text) :
    read (c :: rest) = readString c rest := by
  have notBlank : isWhitespace c = false := by rcases quote with rfl | rfl <;> decide
  simp [read, notBlank, quote]

theorem read_of_symbol {c : Char} {kind : Kind} (symbol : Kind.ofSymbol? c = some kind)
    (rest : Text) :
    read (c :: rest) = { lexeme := { kind := kind, value := [c] }, rest := rest } := by
  have other : isWhitespace c = false ∧ ¬(c = '"' ∨ c = '\'') := by
    unfold Kind.ofSymbol? at symbol
    split at symbol <;> first | (cases symbol; done) | decide
  simp [read, other.1, other.2, symbol]

/-- Symbols are no part of a name. -/
theorem not_isName_of_symbol {c : Char} {kind : Kind} (symbol : Kind.ofSymbol? c = some kind) :
    isName c = false := by
  unfold Kind.ofSymbol? at symbol
  split at symbol <;> first | (cases symbol; done) | decide

theorem open_of_isName {c : Char} (name : isName c) : Open c := by
  refine ⟨?_, ?_, ?_⟩
  · simp only [isWhitespace, Bool.or_eq_false_iff, beq_eq_false_iff_ne]
    refine ⟨⟨?_, ?_⟩, ?_⟩ <;> rintro rfl <;> exact absurd name (by decide)
  · rintro (rfl | rfl) <;> exact absurd name (by decide)
  · cases symbol : Kind.ofSymbol? c with
    | none => rfl
    | some kind => simp [not_isName_of_symbol symbol] at name

theorem read_of_numeral {c : Char} (start : Open c) {rest after : Text} {n : Numeral}
    (h : Numeral.read (c :: rest) = some (n, after)) : read (c :: rest) = readNumeric n after := by
  simp [read, start.blank, start.quote, start.symbol, h]

theorem isPrefixOf_cdcMark_iff (rest : Text) :
    cdcMark.isPrefixOf ('-' :: rest) ↔
      (Lookahead.ofText rest).first = some '-' ∧ (Lookahead.ofText rest).second = some '>' := by
  match rest with
  | [] => simp [cdcMark, Lookahead.ofText]
  | [a] => simp [cdcMark, Lookahead.ofText]
  | a :: b :: after =>
      simp only [cdcMark, List.isPrefixOf_cons_cons_self, List.isPrefixOf, Bool.and_true,
        Bool.and_eq_true, beq_iff_eq, Lookahead.ofText, List.getElem?_cons_zero,
        List.getElem?_cons_succ, Option.some.injEq]
      exact ⟨fun h => ⟨h.1.symm, h.2.symm⟩, fun h => ⟨h.1.symm, h.2.symm⟩⟩

theorem read_of_cdc (rest : Text) :
    read ('-' :: '-' :: '>' :: rest) =
      { lexeme := { kind := .cdc, value := cdcMark }, rest := rest } := by
  have noNumber : Numeral.read ('-' :: '-' :: '>' :: rest) = none := by
    rw [← Option.not_isSome_iff_eq_none, ← Numeral.startsNumber_iff]
    simp [Lookahead.ofText, Lookahead.startsNumber]
  simp [read, noNumber, isWhitespace, Kind.ofSymbol?, cdcMark]

theorem read_of_identifier {c : Char} (start : Open c) {rest : Text}
    (noNumber : ¬(Lookahead.ofText (c :: rest)).startsNumber)
    (noMark : ¬cdcMark.isPrefixOf (c :: rest))
    (h : (Lookahead.ofText (c :: rest)).startsIdentifier) :
    read (c :: rest) = readIdentLike (c :: rest) := by
  rw [Numeral.startsNumber_iff, Option.not_isSome_iff_eq_none] at noNumber
  simp [read, start.blank, start.quote, start.symbol, noNumber, noMark, h]

theorem read_of_marked {c : Char} (start : Open c) {rest : Text}
    (noNumber : ¬(Lookahead.ofText (c :: rest)).startsNumber)
    (noMark : ¬cdcMark.isPrefixOf (c :: rest))
    (h : ¬(Lookahead.ofText (c :: rest)).startsIdentifier) :
    read (c :: rest) = readMarked c rest := by
  rw [Numeral.startsNumber_iff, Option.not_isSome_iff_eq_none] at noNumber
  simp [read, start.blank, start.quote, start.symbol, noNumber, noMark, h]

/-- A code point read as a delimiter. -/
def delimited (c : Char) (rest : Text) : Scanned :=
  { lexeme := { kind := .delim, value := [c] }, rest := rest }

/-- The code points that begin a lexeme only together with what follows them, and neither a number
nor an identifier. -/
def IsMark (c : Char) : Prop := c = '/' ∨ c = '<' ∨ c = '#' ∨ c = '@'

theorem read_of_isMark {c : Char} (mark : IsMark c) (rest : Text) :
    read (c :: rest) = readMarked c rest := by
  rcases mark with rfl | rfl | rfl | rfl <;>
    exact read_of_marked ⟨by decide, by decide, by decide⟩
      (by simp [Lookahead.ofText, Lookahead.startsNumber])
      (by simp [cdcMark])
      (by simp [Lookahead.ofText, Lookahead.startsIdentifier, isNameStart])

theorem readMarked_of_not_isMark {c : Char} (notMark : ¬IsMark c) (rest : Text) :
    readMarked c rest = delimited c rest := by
  unfold IsMark at notMark
  unfold readMarked
  split <;> simp_all [delimited]

theorem readMarked_slash {rest : Text} (h : rest.head? ≠ some '*') :
    readMarked '/' rest = delimited '/' rest := by
  unfold readMarked
  split <;> simp_all [delimited]

theorem readMarked_less {rest : Text}
    (h : Lookahead.ofText rest ≠ ⟨some '!', some '-', some '-'⟩) :
    readMarked '<' rest = delimited '<' rest := by
  unfold readMarked
  split <;> simp_all [delimited, Lookahead.ofText]

theorem readIdentLike_call {text rest : Text} (h : (Name.read text).2 = '(' :: rest) :
    readIdentLike text =
      if isUrlName (Name.read text).1 then readUrl (Name.read text).1 rest
      else { lexeme := { kind := .function, value := (Name.read text).1 }, rest := rest } := by
  simp only [readIdentLike, h]

theorem readIdentLike_ident {text : Text} (h : (Name.read text).2.head? ≠ some '(') :
    readIdentLike text =
      { lexeme := { kind := .ident, value := (Name.read text).1 }
        rest := (Name.read text).2 } := by
  rw [readIdentLike]
  split
  · next rest hrest => simp [hrest] at h
  · rfl

theorem readNumeric_percentage (n : Numeral) (rest : Text) :
    readNumeric n ('%' :: rest) =
      { lexeme :=
          { kind := .percentage, value := n.text ++ ['%'], numeric := some (payload n none) }
        rest := rest } := by
  simp [readNumeric]

theorem readNumeric_dimension (n : Numeral) {rest : Text}
    (start : (Lookahead.ofText rest).startsIdentifier) :
    readNumeric n rest =
      { lexeme :=
          { kind := .dimension, value := n.text ++ (Name.read rest).1
            numeric := some (payload n (Name.read rest).1) }
        rest := (Name.read rest).2 } := by
  have notPercent : rest.head? ≠ some '%' := by
    intro percent
    obtain ⟨after, rfl⟩ := List.head?_eq_some_iff.mp percent
    simp [Lookahead.ofText, Lookahead.startsIdentifier, isNameStart] at start
  simp [readNumeric, notPercent, start]

theorem readNumeric_number (n : Numeral) {rest : Text} (notPercent : rest.head? ≠ some '%')
    (noUnit : ¬(Lookahead.ofText rest).startsIdentifier) :
    readNumeric n rest =
      { lexeme := { kind := .number, value := n.text, numeric := some (payload n none) }
        rest := rest } := by
  simp [readNumeric, notPercent, noUnit]

theorem readUrl_function (name : Text) {text : Text}
    (quote : (text.dropWhile isWhitespace).head? = some '"' ∨
      (text.dropWhile isWhitespace).head? = some '\'') :
    readUrl name text = { lexeme := { kind := .function, value := name }, rest := text } :=
  if_pos quote

theorem readUrl_url (name : Text) {text : Text}
    (noQuote : ¬((text.dropWhile isWhitespace).head? = some '"' ∨
      (text.dropWhile isWhitespace).head? = some '\'')) :
    readUrl name text =
      { lexeme :=
          { kind := if (Url.read (text.dropWhile isWhitespace)).good then .url else .badUrl
            value := (Url.read (text.dropWhile isWhitespace)).content }
        rest := (Url.read (text.dropWhile isWhitespace)).rest } :=
  if_neg noQuote

theorem kind_readString (quote : Char) (text : Text) :
    (readString quote text).lexeme.kind ∈ [Kind.string, .badString] := by
  simp only [readString]
  split <;> simp

theorem kind_readNumeric (n : Numeral) (rest : Text) :
    (readNumeric n rest).lexeme.kind ∈ [Kind.number, .percentage, .dimension] := by
  unfold readNumeric
  split
  · simp
  · split <;> simp

@[simp] theorem unterminated_readNumeric (n : Numeral) (rest : Text) :
    (readNumeric n rest).unterminated = none := by
  unfold readNumeric
  split
  · rfl
  · split <;> rfl

theorem kind_readUrl (name text : Text) :
    (readUrl name text).lexeme.kind ∈ [Kind.function, .url, .badUrl] := by
  simp only [readUrl]
  split
  · simp
  · simp only
    split <;> simp

theorem kind_readIdentLike (text : Text) :
    (readIdentLike text).lexeme.kind ∈ [Kind.ident, .function, .url, .badUrl] := by
  simp only [readIdentLike]
  split
  · split
    · exact List.mem_cons_of_mem _ (kind_readUrl _ _)
    · simp
  · simp

@[simp] theorem unterminated_readIdentLike (text : Text) :
    (readIdentLike text).unterminated = none := by
  unfold readIdentLike readUrl
  simp only
  split
  · split
    · split <;> rfl
    · rfl
  · rfl

/-- No symbol is blank, or a name, or the end of the text. -/
theorem kind_of_symbol {c : Char} {kind : Kind} (symbol : Kind.ofSymbol? c = some kind) :
    kind ∈ [Kind.colon, .semicolon, .comma, .openSquare, .closeSquare, .openParen, .closeParen,
      .openBrace, .closeBrace] := by
  unfold Kind.ofSymbol? at symbol
  split at symbol <;> cases symbol <;> decide

/-- A code point that nothing longer starts with. -/
structure StandsAlone (c : Char) (rest : Text) : Prop extends Open c where
  number : ¬(Lookahead.ofText (c :: rest)).startsNumber
  mark : ¬cdcMark.isPrefixOf (c :: rest)
  identifier : ¬(Lookahead.ofText (c :: rest)).startsIdentifier
  slash : c = '/' → rest.head? ≠ some '*'
  less : c = '<' → Lookahead.ofText rest ≠ ⟨some '!', some '-', some '-'⟩
  hash : c = '#' → ¬(Lookahead.ofText rest).continuesName
  commercialAt : c = '@' → ¬(Lookahead.ofText rest).startsIdentifier

/-- The ways in which a lexeme starts, each with what is then read. -/
inductive Reading : Text → Scanned → Prop where
  | endOfInput : Reading [] { lexeme := .endOfInput, rest := [] }
  | whitespace {c : Char} {rest : Text} (blank : isWhitespace c) :
      Reading (c :: rest)
        { lexeme := { kind := .whitespace, value := c :: rest.takeWhile isWhitespace }
          rest := rest.dropWhile isWhitespace }
  | string {c : Char} {rest : Text} (quote : c = '"' ∨ c = '\'') :
      Reading (c :: rest) (readString c rest)
  | symbol {c : Char} {kind : Kind} {rest : Text} (symbol : Kind.ofSymbol? c = some kind) :
      Reading (c :: rest) { lexeme := { kind := kind, value := [c] }, rest := rest }
  | numeric {c : Char} {rest after : Text} {n : Numeral} (start : Open c)
      (numeral : Numeral.read (c :: rest) = some (n, after)) :
      Reading (c :: rest) (readNumeric n after)
  | cdc {rest : Text} :
      Reading ('-' :: '-' :: '>' :: rest)
        { lexeme := { kind := .cdc, value := cdcMark }, rest := rest }
  | identLike {c : Char} {rest : Text} (start : Open c)
      (number : ¬(Lookahead.ofText (c :: rest)).startsNumber)
      (mark : ¬cdcMark.isPrefixOf (c :: rest))
      (identifier : (Lookahead.ofText (c :: rest)).startsIdentifier) :
      Reading (c :: rest) (readIdentLike (c :: rest))
  | comment {inside : Text} : Reading ('/' :: '*' :: inside) (readComment inside)
  | cdo {rest : Text} :
      Reading ('<' :: '!' :: '-' :: '-' :: rest)
        { lexeme := { kind := .cdo, value := cdoMark }, rest := rest }
  | hash {rest : Text} (name : (Lookahead.ofText rest).continuesName) :
      Reading ('#' :: rest)
        { lexeme :=
            { kind := .hash, value := (Name.read rest).1
              isIdLike := (Lookahead.ofText rest).startsIdentifier }
          rest := (Name.read rest).2 }
  | atKeyword {rest : Text} (identifier : (Lookahead.ofText rest).startsIdentifier) :
      Reading ('@' :: rest)
        { lexeme := { kind := .atKeyword, value := (Name.read rest).1 }
          rest := (Name.read rest).2 }
  | delim {c : Char} {rest : Text} (alone : StandsAlone c rest) :
      Reading (c :: rest) (delimited c rest)

theorem Reading.read_eq {text : Text} {scanned : Scanned} (h : Reading text scanned) :
    read text = scanned := by
  cases h with
  | endOfInput => rfl
  | whitespace blank => exact read_of_blank blank _
  | string quote => exact read_of_quote quote _
  | symbol symbol => exact read_of_symbol symbol _
  | numeric start numeral => exact read_of_numeral start numeral
  | cdc => exact read_of_cdc _
  | identLike start number mark identifier => exact read_of_identifier start number mark identifier
  | comment => exact read_of_isMark (.inl rfl) _
  | cdo => exact read_of_isMark (.inr (.inl rfl)) _
  | hash name => rw [read_of_isMark (.inr (.inr (.inl rfl)))]; simp [readMarked, name]
  | atKeyword identifier =>
      rw [read_of_isMark (.inr (.inr (.inr rfl)))]; simp [readMarked, identifier]
  | @delim c rest alone =>
      rw [read_of_marked alone.toOpen alone.number alone.mark alone.identifier]
      by_cases isMark : IsMark c
      · rcases isMark with rfl | rfl | rfl | rfl
        · exact readMarked_slash (alone.slash rfl)
        · exact readMarked_less (alone.less rfl)
        · simp [readMarked, alone.hash rfl, delimited]
        · simp [readMarked, alone.commercialAt rfl, delimited]
      · exact readMarked_of_not_isMark isMark rest

/-- Every reading starts in one of these ways. -/
theorem reading_read (text : Text) : Reading text (read text) := by
  suffices ∃ scanned, Reading text scanned by
    obtain ⟨scanned, h⟩ := this
    rwa [h.read_eq]
  cases text with
  | nil => exact ⟨_, .endOfInput⟩
  | cons c rest =>
      by_cases blank : isWhitespace c
      · exact ⟨_, .whitespace blank⟩
      by_cases quote : c = '"' ∨ c = '\''
      · exact ⟨_, .string quote⟩
      cases symbol : Kind.ofSymbol? c with
      | some kind => exact ⟨_, .symbol symbol⟩
      | none =>
          have start : Open c := ⟨by simpa using blank, quote, symbol⟩
          cases numeral : Numeral.read (c :: rest) with
          | some found => exact ⟨_, .numeric start numeral⟩
          | none =>
              have number : ¬(Lookahead.ofText (c :: rest)).startsNumber := by
                simp [Numeral.startsNumber_iff, numeral]
              by_cases mark : cdcMark.isPrefixOf (c :: rest)
              · obtain ⟨after, hafter⟩ := List.isPrefixOf_iff_prefix.mp mark
                rw [← hafter]
                exact ⟨_, .cdc⟩
              by_cases identifier : (Lookahead.ofText (c :: rest)).startsIdentifier
              · exact ⟨_, .identLike start number mark identifier⟩
              by_cases slash : c = '/' ∧ rest.head? = some '*'
              · obtain ⟨inside, rfl⟩ := List.head?_eq_some_iff.mp slash.2
                rw [slash.1]
                exact ⟨_, .comment⟩
              by_cases less : c = '<' ∧ Lookahead.ofText rest = ⟨some '!', some '-', some '-'⟩
              · obtain ⟨after, rfl⟩ := Lookahead.eq_of_ofText less.2
                rw [less.1]
                exact ⟨_, .cdo⟩
              by_cases hash : c = '#' ∧ (Lookahead.ofText rest).continuesName
              · rw [hash.1]
                exact ⟨_, .hash hash.2⟩
              by_cases commercialAt : c = '@' ∧ (Lookahead.ofText rest).startsIdentifier
              · rw [commercialAt.1]
                exact ⟨_, .atKeyword commercialAt.2⟩
              exact ⟨_, .delim
                { start with
                  number, mark, identifier
                  slash := fun h star => slash ⟨h, star⟩
                  less := fun h ahead => less ⟨h, ahead⟩
                  hash := fun h name => hash ⟨h, name⟩
                  commercialAt := fun h name => commercialAt ⟨h, name⟩ }⟩

end Lexeme

end CssSyntax
