import CssSyntax.Proofs.Boundaries
import CssSyntax.Proofs.Identifiers

/-!
What a text begins with, as far as a token in front of it may care. How that is spelled makes no
difference: a token that stays what it is in front of a text does so in front of every text that
begins alike, unless that begins with a number or makes an opening comment mark.
-/

namespace CssSyntax

open CodePoint Text

/-- What a text begins with, as far as a lexeme in front of it may care. -/
inductive Front where
  | endOfInput
  | number
  | name
  | quote
  | plain (c : Char)

def Front.ofText : Text → Front
  | [] => .endOfInput
  | c :: rest =>
      let next := Lookahead.ofText (c :: rest)
      if next.startsNumber then .number
      else if next.startsIdentifier then .name
      else if c = '"' ∨ c = '\'' then .quote
      else .plain c

/-- What a lexeme begins with, however it is spelled. -/
def Lexeme.front (lexeme : Lexeme) : Front :=
  match lexeme.kind with
  | .endOfInput => .endOfInput
  | .number | .percentage | .dimension => .number
  | .ident | .function | .url | .badUrl | .cdc => .name
  | .string | .badString => .quote
  | .comment => .plain '/'
  | .cdo => .plain '<'
  | .hash => .plain '#'
  | .atKeyword => .plain '@'
  | _ => (lexeme.value.head?.map .plain).getD .endOfInput

namespace Front

theorem ofText_number {text : Text} (number : (Lookahead.ofText text).startsNumber) :
    ofText text = .number := by
  cases text with
  | nil => cases number
  | cons c rest => exact if_pos number

theorem ofText_name {text : Text} (identifier : (Lookahead.ofText text).startsIdentifier) :
    ofText text = .name := by
  cases text with
  | nil => simp [Lookahead.ofText, Lookahead.startsIdentifier] at identifier
  | cons c rest => simp [ofText, identifier, Name.not_startsNumber identifier]

theorem ofText_plain {c : Char} {rest : Text}
    (number : ¬(Lookahead.ofText (c :: rest)).startsNumber)
    (identifier : ¬(Lookahead.ofText (c :: rest)).startsIdentifier)
    (quote : ¬(c = '"' ∨ c = '\'')) :
    ofText (c :: rest) = .plain c := by
  rw [ofText, if_neg number, if_neg identifier, if_neg quote]

theorem ofText_quote {c : Char} (quote : c = '"' ∨ c = '\'') (rest : Text) :
    ofText (c :: rest) = .quote := by
  rcases quote with rfl | rfl <;>
    simp [ofText, Lookahead.ofText, Lookahead.startsNumber, Lookahead.startsIdentifier, isNameStart]

/-- Code points that are what they are, whatever comes behind them. -/
theorem ofText_of_blank {c : Char} (blank : isWhitespace c) (rest : Text) :
    ofText (c :: rest) = .plain c := by
  simp only [isWhitespace, Bool.or_eq_true, beq_iff_eq] at blank
  rcases blank with (rfl | rfl) | rfl <;>
    simp [ofText, Lookahead.ofText, Lookahead.startsNumber, Lookahead.startsIdentifier, isNameStart]

theorem ofText_of_symbol {c : Char} {kind : Kind} (symbol : Kind.ofSymbol? c = some kind)
    (rest : Text) : ofText (c :: rest) = .plain c := by
  unfold Kind.ofSymbol? at symbol
  split at symbol <;> cases symbol <;>
    simp [ofText, Lookahead.ofText, Lookahead.startsNumber, Lookahead.startsIdentifier, isNameStart]

theorem front_of_kind {lexeme : Lexeme} {kinds : List Kind} {front : Front}
    (mem : lexeme.kind ∈ kinds)
    (each : ∀ kind ∈ kinds, ({ lexeme with kind := kind } : Lexeme).front = front) :
    front = lexeme.front :=
  (each lexeme.kind mem).symm

/-- A text begins with what its first lexeme begins with. -/
theorem ofText_eq (text : Text) : ofText text = (Lexeme.read text).lexeme.front := by
  have reading := Lexeme.reading_read text
  generalize Lexeme.read text = scanned at reading ⊢
  cases reading with
  | endOfInput => rfl
  | whitespace blank => exact ofText_of_blank blank _
  | @string c rest quote =>
      rw [ofText_quote quote]
      exact front_of_kind (Lexeme.kind_readString c rest) (by simp [Lexeme.front])
  | symbol symbol =>
      rw [ofText_of_symbol symbol]
      unfold Kind.ofSymbol? at symbol
      split at symbol <;> cases symbol <;> rfl
  | @numeric c rest after n start numeral =>
      have number : (Lookahead.ofText (c :: rest)).startsNumber := by
        rw [Numeral.startsNumber_iff, numeral]
        rfl
      rw [ofText_number number]
      exact front_of_kind (Lexeme.kind_readNumeric n after) (by simp [Lexeme.front])
  | cdc => rfl
  | identLike start number mark identifier =>
      rw [ofText_name identifier]
      exact front_of_kind (Lexeme.kind_readIdentLike _) (by simp [Lexeme.front])
  | comment => rfl
  | cdo => rfl
  | hash => rfl
  | atKeyword => rfl
  | @delim c rest alone => exact ofText_plain alone.number alone.identifier alone.quote

/-- How a text with a certain front comes about. -/
theorem cases_ofText (text : Text) :
    match ofText text with
    | .endOfInput => text = []
    | .number => (Lookahead.ofText text).startsNumber
    | .name => (Lookahead.ofText text).startsIdentifier
    | .quote => text.head? = some '"' ∨ text.head? = some '\''
    | .plain c => text.head? = some c ∧ ¬(Lookahead.ofText text).startsIdentifier := by
  cases text with
  | nil => rfl
  | cons c rest =>
      by_cases number : (Lookahead.ofText (c :: rest)).startsNumber
      · rw [ofText_number number]
        exact number
      by_cases identifier : (Lookahead.ofText (c :: rest)).startsIdentifier
      · rw [ofText_name identifier]
        exact identifier
      by_cases quote : c = '"' ∨ c = '\''
      · rw [ofText_quote quote]
        exact quote.imp (congrArg some) (congrArg some)
      · rw [ofText_plain number identifier quote]
        exact ⟨rfl, identifier⟩

section

variable {text : Text}

theorem eq_nil_iff : text = [] ↔ ofText text = .endOfInput := by
  refine ⟨fun empty => empty ▸ rfl, fun front => ?_⟩
  have h := cases_ofText text
  rwa [front] at h

theorem startsIdentifier_iff : (Lookahead.ofText text).startsIdentifier ↔ ofText text = .name := by
  refine ⟨ofText_name, fun front => ?_⟩
  have h := cases_ofText text
  rwa [front] at h

theorem quote_iff :
    text.head? = some '"' ∨ text.head? = some '\'' ↔ ofText text = .quote := by
  refine ⟨fun quote => ?_, fun front => ?_⟩
  · obtain ⟨c, rest, rfl, isQuote⟩ := exists_quote_cons quote
    exact ofText_quote isQuote rest
  · have h := cases_ofText text
    rwa [front] at h

theorem head_of_plain {c : Char} (front : ofText text = .plain c) : text.head? = some c := by
  have h := cases_ofText text
  rw [front] at h
  exact h.1

/-- A code point that settles what a text begins with comes first just where the text begins with
it. -/
theorem head_iff {c : Char} (settles : ∀ rest, ofText (c :: rest) = .plain c) :
    text.head? = some c ↔ ofText text = .plain c := by
  refine ⟨fun first => ?_, head_of_plain⟩
  obtain ⟨rest, rfl⟩ := List.head?_eq_some_iff.mp first
  exact settles rest

theorem startsNumber_of_digit {c : Char} (digit : c.isDigit) (rest : Text) :
    (Lookahead.ofText (c :: rest)).startsNumber := by
  obtain ⟨notPlus, notMinus, notPoint⟩ := digit_not_sign digit
  simp [Lookahead.ofText, Lookahead.startsNumber, notPlus, notMinus, notPoint, digit]

/-- A number starts with a digit or goes on with another number behind its sign or point. -/
theorem digit_or_startsNumber {c : Char} {rest : Text}
    (number : (Lookahead.ofText (c :: rest)).startsNumber) :
    c.isDigit ∨ (Lookahead.ofText rest).startsNumber := by
  have digits (digit : rest.head?.any Char.isDigit) : (Lookahead.ofText rest).startsNumber := by
    cases rest with
    | nil => cases digit
    | cons d behind => exact startsNumber_of_digit digit behind
  rw [Numeral.startsNumber_iff, Numeral.isSome_read_iff] at number
  by_cases sign : c = '+' ∨ c = '-'
  · have signed : splitSign (c :: rest) = (some c, rest) := if_pos sign
    rw [signed] at number
    rcases number with digit | ⟨point, digit⟩
    · exact .inr (digits digit)
    · obtain ⟨behind, rfl⟩ := List.head?_eq_some_iff.mp point
      exact .inr (by simpa [Lookahead.ofText, Lookahead.startsNumber] using digit)
  · have unsigned : splitSign (c :: rest) = (none, c :: rest) := if_neg sign
    rw [unsigned] at number
    rcases number with digit | ⟨_, digit⟩
    · exact .inl digit
    · rw [List.getElem?_cons_succ, ← List.head?_eq_getElem?] at digit
      exact .inr (digits digit)

/-- Where no number starts, a name begins with an identifier or with a hyphen. -/
theorem begins_iff (notNumber : ofText text ≠ .number) :
    Name.Begins text ↔ ofText text = .name ∨ ofText text = .plain '-' := by
  constructor
  · intro begins
    by_cases identifier : (Lookahead.ofText text).startsIdentifier
    · exact .inl (ofText_name identifier)
    · obtain ⟨c, rest, rfl⟩ : ∃ c rest, text = c :: rest := by
        cases text with
        | nil => exact absurd begins.1 (by decide)
        | cons c rest => exact ⟨c, rest, rfl⟩
      have number : ¬(Lookahead.ofText (c :: rest)).startsNumber := mt ofText_number notNumber
      have hyphen : c = '-' := by
        rw [Name.startsIdentifier_iff] at identifier
        refine Decidable.byContradiction fun notHyphen => identifier ⟨begins, fun first => ?_⟩
        exact absurd (Option.some.inj first) notHyphen
      subst hyphen
      exact .inr (ofText_plain number identifier (by decide))
  · rintro (name | hyphen)
    · exact ((Name.startsIdentifier_iff text).mp (startsIdentifier_iff.mpr name)).1
    · obtain ⟨rest, rfl⟩ := List.head?_eq_some_iff.mp (head_of_plain hyphen)
      exact (Name.begins_cons_iff _ _).mpr (.inr (.inl rfl))

theorem continuesName_iff (notNumber : ofText text ≠ .number) :
    (Lookahead.ofText text).continuesName ↔ Name.Begins text := by
  refine ⟨fun name => ⟨name, fun c first => ?_⟩, And.left⟩
  obtain ⟨rest, rfl⟩ := List.head?_eq_some_iff.mp first
  refine Bool.eq_false_iff.mpr fun digit => notNumber ?_
  exact ofText_number (startsNumber_of_digit digit rest)

end

end Front

namespace Lexeme

open Front

section

variable {lexeme : Lexeme} {text other : Text} (same : ofText text = ofText other)
  (notNumber : ofText text ≠ .number)

include same notNumber

theorem begins_of_front (begins : Name.Begins other) : Name.Begins text := by
  rw [Front.begins_iff notNumber, same]
  exact (Front.begins_iff (same ▸ notNumber)).mp begins

theorem continuesName_of_front (name : (Lookahead.ofText other).continuesName) :
    (Lookahead.ofText text).continuesName :=
  (begins_of_front same notNumber ((Front.continuesName_iff (same ▸ notNumber)).mp name)).1

omit notNumber in
theorem head_of_front {c : Char} (settles : ∀ rest, ofText (c :: rest) = .plain c)
    (first : other.head? = some c) : text.head? = some c := by
  rw [head_iff settles, same]
  exact (head_iff settles).mp first

omit notNumber in
theorem noEscape_of_front (missing : text = [] ∨ text.head? = some '\n') :
    other = [] ∨ other.head? = some '\n' := by
  refine missing.imp (fun ended => ?_) (head_of_front same.symm fun _ => rfl)
  rw [eq_nil_iff, ← same, ← eq_nil_iff]
  exact ended

/-- What begins alike leaves a lexeme as it is. For functions named `url` that goes for what comes
behind blanks. -/
theorem EndsBefore.of_front
    (sameInside : ofText (text.dropWhile isWhitespace) = ofText (other.dropWhile isWhitespace))
    (ends : lexeme.EndsBefore text) : lexeme.EndsBefore other := by
  have noName : ¬(Lookahead.ofText text).continuesName → ¬(Lookahead.ofText other).continuesName :=
    mt (continuesName_of_front same notNumber)
  unfold EndsBefore at ends ⊢
  split at ends
  · intro c first
    refine Bool.eq_false_iff.mpr fun blank => ?_
    have front := head_of_front same (fun rest => ofText_of_blank blank rest) first
    exact absurd blank (Bool.eq_false_iff.mp (ends c front))
  · exact ⟨noName ends.1, mt (head_of_front same fun _ => rfl) ends.2⟩
  · exact noName ends
  · exact noName ends
  · exact noName ends
  · refine ⟨fun c first => Bool.eq_false_iff.mpr fun digit => notNumber ?_, ?_, ?_⟩
    · obtain ⟨rest, rfl⟩ := List.head?_eq_some_iff.mp first
      exact same.trans (ofText_number (startsNumber_of_digit digit rest))
    · exact mt (head_of_front same fun _ => rfl) ends.2.1
    · rw [Front.startsIdentifier_iff, ← same, ← Front.startsIdentifier_iff]
      exact ends.2.2
  · exact head_of_front same.symm (fun _ => rfl) ends
  · exact fun backslash => noEscape_of_front same (ends backslash)
  · intro isUrl
    rw [quote_iff, ← sameInside, ← quote_iff]
    exact ends isUrl
  · trivial

/-- What begins alike leaves a delimiter alone, unless it makes a comment mark of a less-than
sign. -/
theorem StandsAlone.of_front {c : Char} (alone : StandsAlone c text)
    (less : c = '<' → Lookahead.ofText other ≠ ⟨some '!', some '-', some '-'⟩) :
    StandsAlone c other := by
  have begins : Name.Begins other → Name.Begins text := begins_of_front same notNumber
  have escape (found : (Escape.read other).isSome) : (Escape.read text).isSome := by
    rw [Option.isSome_iff_ne_none, ne_eq, Escape.read_eq_none_iff] at found ⊢
    exact mt (noEscape_of_front same) found
  have identifier : ¬(Lookahead.ofText (c :: other)).startsIdentifier := by
    have missing := alone.identifier
    rw [Name.startsIdentifier_iff, Name.begins_cons_iff] at missing ⊢
    refine mt (And.imp ?_ fun behind hyphen => begins (behind hyphen)) missing
    exact Or.imp_right (Or.imp_right (And.imp_right escape))
  refine
    { alone with
      number := fun number => ?_
      mark := fun mark => ?_
      identifier := identifier
      slash := fun slash => mt (head_of_front same fun _ => rfl) (alone.slash slash)
      less := less
      hash := fun hash => mt (continuesName_of_front same notNumber) (alone.hash hash)
      commercialAt := fun commercialAt => ?_ }
  · -- A digit starts a number whatever comes behind it, and otherwise `text` starts with one.
    rcases digit_or_startsNumber number with digit | behind
    · exact alone.number (startsNumber_of_digit digit text)
    · exact notNumber (same.trans (ofText_number behind))
  · -- A closing mark would start an identifier as well.
    rw [ List.isPrefixOf_iff_prefix] at mark
    obtain ⟨after, hafter⟩ := mark
    cases hafter
    exact identifier (by simp [Lookahead.ofText, Lookahead.startsIdentifier])
  · rw [Front.startsIdentifier_iff, ← same, ← Front.startsIdentifier_iff]
    exact alone.commercialAt commercialAt

/-- What begins alike leaves a lexeme as it is. -/
theorem StaysBefore.of_front
    (sameInside : ofText (text.dropWhile isWhitespace) = ofText (other.dropWhile isWhitespace))
    (less : lexeme.kind = .delim → lexeme.value = ['<'] →
      Lookahead.ofText other ≠ ⟨some '!', some '-', some '-'⟩)
    (stays : lexeme.StaysBefore text) : lexeme.StaysBefore other := by
  refine ⟨stays.ends.of_front same notNumber sameInside, fun kind value => ?_,
    fun kind c value => ?_⟩
  · exact mt (head_of_front same fun _ => rfl) (stays.hyphens kind value)
  · have alone := stays.alone kind c value
    exact alone.of_front same notNumber fun isLess => less kind (isLess ▸ value)

end

end Lexeme

end CssSyntax
