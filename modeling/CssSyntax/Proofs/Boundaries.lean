import CssSyntax.Proofs.Casing
import CssSyntax.Proofs.Coverage

/-!
What stands behind a token. Every token goes as far as it can: what comes next neither continues it
nor would have made another token of it, and where a token is what it is because of what comes next,
the next token says so.
-/

namespace CssSyntax

open CodePoint Text

namespace Name

/-- A name ends where no name goes on. -/
theorem not_continuesName_read (text : Text) :
    ¬(Lookahead.ofText (read text).2).continuesName := by
  fun_induction read text with
  | case1 => decide
  | case2 c rest name inner ih => exact ih
  | case3 rest e after hread inner notName ih => exact ih
  | case4 rest hread notName => simp [continuesName_cons_iff, notName, hread]
  | case5 c rest notName notEscape => simp [continuesName_cons_iff, notName, notEscape]

end Name

/-- A string that a line feed broke off ends right before it. -/
theorem Quoted.head?_rest_of_lineFeed (quote : Char) (text : Text)
    (h : (read quote text).ending = .lineFeed) : (read quote text).rest.head? = some '\n' := by
  fun_induction read quote text with
  | case1 => cases h
  | case2 => cases h
  | case3 => rfl
  | case4 rest e after hread inner notQuote notFeed ih => exact ih h
  | case5 rest hread notQuote notFeed ih => exact ih h
  | case6 c rest notQuote notFeed notEscape inner ih => exact ih h

namespace Lexeme

/-- Nothing of a lexeme is left in front of a text. Broken strings, lone backslashes and functions
named `url` are what they are because of what stands there. -/
def EndsBefore (lexeme : Lexeme) (rest : Text) : Prop :=
  match lexeme.kind with
  | .whitespace => StopsAt isWhitespace rest
  | .ident => ¬(Lookahead.ofText rest).continuesName ∧ rest.head? ≠ some '('
  | .hash | .atKeyword | .dimension => ¬(Lookahead.ofText rest).continuesName
  | .number =>
      StopsAt Char.isDigit rest ∧ rest.head? ≠ some '%' ∧
        ¬(Lookahead.ofText rest).startsIdentifier
  | .badString => rest.head? = some '\n'
  | .delim => lexeme.value = ['\\'] → rest = [] ∨ rest.head? = some '\n'
  | .function =>
      lexeme.value.lower = ['u', 'r', 'l'] →
        (rest.dropWhile isWhitespace).head? = some '"' ∨
          (rest.dropWhile isWhitespace).head? = some '\''
  | _ => True

theorem endsBefore_readString (quote : Char) (text : Text) :
    (readString quote text).lexeme.EndsBefore (readString quote text).rest := by
  by_cases feed : (Quoted.read quote text).ending = .lineFeed
  · have first := Quoted.head?_rest_of_lineFeed quote text feed
    simpa [EndsBefore, readString, feed] using first
  · simp [EndsBefore, readString, feed]

theorem endsBefore_readNumeric (n : Numeral) {rest : Text} (ends : StopsAt Char.isDigit rest) :
    (readNumeric n rest).lexeme.EndsBefore (readNumeric n rest).rest := by
  by_cases percent : rest.head? = some '%'
  · obtain ⟨rest, rfl⟩ := List.head?_eq_some_iff.mp percent
    rw [readNumeric_percentage]
    trivial
  · by_cases start : (Lookahead.ofText rest).startsIdentifier
    · rw [readNumeric_dimension n start]
      exact Name.not_continuesName_read rest
    · rw [readNumeric_number n percent start]
      exact ⟨ends, percent, start⟩

theorem endsBefore_readUrl (name text : Text) :
    (readUrl name text).lexeme.EndsBefore (readUrl name text).rest := by
  by_cases quote : (text.dropWhile isWhitespace).head? = some '"' ∨
      (text.dropWhile isWhitespace).head? = some '\''
  · rw [readUrl_function name quote]
    exact fun _ => quote
  · rw [readUrl_url name quote]
    cases (Url.read (text.dropWhile isWhitespace)).good <;> trivial

theorem endsBefore_readIdentLike (text : Text) :
    (readIdentLike text).lexeme.EndsBefore (readIdentLike text).rest := by
  by_cases call : (Name.read text).2.head? = some '('
  · obtain ⟨rest, hrest⟩ := List.head?_eq_some_iff.mp call
    rw [readIdentLike_call hrest]
    by_cases isUrl : isUrlName (Name.read text).1
    · rw [if_pos isUrl]
      exact endsBefore_readUrl _ rest
    · rw [if_neg isUrl]
      exact fun url => absurd ((isUrlName_iff _).mpr url) isUrl
  · rw [readIdentLike_ident call]
    exact ⟨Name.not_continuesName_read text, call⟩

/-- A backslash stands alone at the end of the text and before a line feed. -/
theorem StandsAlone.lineFeed {rest : Text} (alone : StandsAlone '\\' rest) :
    rest = [] ∨ rest.head? = some '\n' := by
  have missing : ¬(Lookahead.ofText ('\\' :: rest)).continuesName := by
    have noIdentifier := alone.identifier
    simpa [Lookahead.ofText, Lookahead.startsIdentifier, Lookahead.continuesName, isName,
      isNameStart] using noIdentifier
  rw [Name.continuesName_cons_iff, not_or] at missing
  have noEscape : Escape.read rest = none := by simpa using missing.2
  exact Escape.read_eq_none_iff.mp noEscape

/-- What is read off the front of a text leaves nothing of itself behind. -/
theorem endsBefore_read (text : Text) : (read text).lexeme.EndsBefore (read text).rest := by
  have reading := reading_read text
  generalize read text = scanned at reading ⊢
  cases reading with
  | endOfInput => trivial
  | whitespace blank => exact stopsAt_dropWhile isWhitespace _
  | @string c rest quote => exact endsBefore_readString c rest
  | @symbol c kind rest symbol =>
      unfold Kind.ofSymbol? at symbol
      split at symbol <;> cases symbol <;> trivial
  | @numeric c rest after n start numeral =>
      exact endsBefore_readNumeric n (Numeral.read_eq_some_iff.mp numeral).2.2.digits
  | cdc => trivial
  | identLike => exact endsBefore_readIdentLike _
  | comment => trivial
  | cdo => trivial
  | @hash rest name => exact Name.not_continuesName_read rest
  | @atKeyword rest identifier => exact Name.not_continuesName_read rest
  | @delim c rest alone =>
      intro backslash
      obtain rfl : c = '\\' := List.singleton_inj.mp backslash
      exact alone.lineFeed

/-- Only what stands alone is read as a delimiter. -/
theorem exists_standsAlone {text : Text} (kind : (read text).lexeme.kind = .delim) :
    ∃ c rest, text = c :: rest ∧ StandsAlone c rest ∧ read text = delimited c rest := by
  have other {k : Kind} {kinds : List Kind} (mem : k ∈ kinds) (apart : .delim ∉ kinds) :
      k ≠ .delim := fun same => apart (same ▸ mem)
  have reading := reading_read text
  generalize read text = scanned at reading kind ⊢
  cases reading with
  | @delim c rest alone => exact ⟨c, rest, rfl, alone, rfl⟩
  | @string c rest => exact absurd kind (other (kind_readString c rest) (by decide))
  | symbol symbol => exact absurd kind (other (kind_of_symbol symbol) (by decide))
  | @numeric c rest after n => exact absurd kind (other (kind_readNumeric n after) (by decide))
  | identLike => exact absurd kind (other (kind_readIdentLike _) (by decide))
  | _ => cases kind

/-- Nothing of a lexeme is left in front of a text, and the text does not run into it either: two
hyphens stay an identifier, and a delimiter stays one. -/
structure StaysBefore (lexeme : Lexeme) (rest : Text) : Prop where
  ends : lexeme.EndsBefore rest
  hyphens : lexeme.kind = .ident → lexeme.value = ['-', '-'] → rest.head? ≠ some '>'
  alone : lexeme.kind = .delim → ∀ c, lexeme.value = [c] → StandsAlone c rest

/-- What is read off the front of a text stays what it is in front of what is left, except for two
hyphens in front of a greater-than sign, which are an identifier only if one of them is written
with an escape. -/
theorem staysBefore_read {text : Text}
    (hyphens : (read text).lexeme.kind = .ident → (read text).lexeme.value = ['-', '-'] →
      (read text).rest.head? ≠ some '>') :
    (read text).lexeme.StaysBefore (read text).rest := by
  refine ⟨endsBefore_read text, hyphens, fun kind c value => ?_⟩
  obtain ⟨d, rest, rfl, alone, hread⟩ := exists_standsAlone kind
  rw [hread] at value ⊢
  rwa [← List.singleton_inj.mp value]

end Lexeme

@[simp] theorem Scanned.head?_representation (text : Text) (start : Position) :
    ((Lexeme.read text).token text start).representation.head? = text.head? := by
  by_cases empty : text = []
  · rw [empty]
    rfl
  · obtain ⟨c, covered, hcovered⟩ :=
      List.exists_cons_of_ne_nil (representation_ne_nil empty start)
    have split := representation_append text start
    rw [hcovered] at split ⊢
    rw [← split]
    rfl

/-- Blanks that begin with a line feed come first. -/
def StartsLine (tokens : List Token) : Prop :=
  ∃ next ∈ tokens.head?, next.kind = .whitespace ∧ next.representation.head? = some '\n'

/-- A string comes first, or behind one token of blanks. -/
def StartsString (tokens : List Token) : Prop :=
  ∃ blanks next later, tokens = blanks ++ next :: later ∧ blanks.length ≤ 1 ∧
    (∀ blank ∈ blanks, blank.kind = .whitespace) ∧
    (next.kind = .string ∨ next.kind = .badString)

theorem startsLine_tokensFrom (start : Position) {text : Text} (feed : text.head? = some '\n') :
    StartsLine ((tokensFrom start text).map Prod.fst) := by
  obtain ⟨behind, tokens⟩ := tokensFrom_eq_cons start text
  have first := Scanned.head?_representation text start
  rw [feed] at first
  obtain ⟨rest, rfl⟩ := List.head?_eq_some_iff.mp feed
  have blank : (Lexeme.read ('\n' :: rest)).lexeme.kind = .whitespace := by
    rw [Lexeme.read_of_blank rfl]
  rw [tokens, List.map_cons]
  exact ⟨_, rfl, blank, first⟩

theorem exists_quote_cons {text : Text}
    (quote : text.head? = some '"' ∨ text.head? = some '\'') :
    ∃ c rest, text = c :: rest ∧ (c = '"' ∨ c = '\'') := by
  rcases quote with quote | quote
  · obtain ⟨rest, rfl⟩ := List.head?_eq_some_iff.mp quote
    exact ⟨_, rest, rfl, .inl rfl⟩
  · obtain ⟨rest, rfl⟩ := List.head?_eq_some_iff.mp quote
    exact ⟨_, rest, rfl, .inr rfl⟩

/-- The first token at a quote is a string. -/
theorem exists_string_tokensFrom (start : Position) {text : Text}
    (quote : text.head? = some '"' ∨ text.head? = some '\'') :
    ∃ next later, (tokensFrom start text).map Prod.fst = next :: later ∧
      (next.kind = .string ∨ next.kind = .badString) := by
  obtain ⟨later, tokens⟩ := tokensFrom_eq_cons start text
  obtain ⟨c, rest, rfl, isQuote⟩ := exists_quote_cons quote
  have kind := Lexeme.kind_readString c rest
  rw [← Lexeme.read_of_quote isQuote] at kind
  rw [tokens, List.map_cons]
  exact ⟨_, _, rfl, by simpa [Scanned.token] using kind⟩

theorem startsString_tokensFrom (start : Position) {text : Text}
    (quote : (text.dropWhile isWhitespace).head? = some '"' ∨
      (text.dropWhile isWhitespace).head? = some '\'') :
    StartsString ((tokensFrom start text).map Prod.fst) := by
  cases text with
  | nil => simp at quote
  | cons c rest =>
      by_cases blank : isWhitespace c
      · rw [List.dropWhile_cons_of_pos blank] at quote
        have first := Lexeme.read_of_blank blank rest
        obtain ⟨next, later, tokens, kind⟩ :=
          exists_string_tokensFrom
            (start.after ((Lexeme.read (c :: rest)).token (c :: rest) start).representation) quote
        rw [tokensFrom_of_ne_nil (List.cons_ne_nil c rest), List.map_cons]
        refine ⟨[(Lexeme.read (c :: rest)).token (c :: rest) start], next, later, ?_,
          Nat.le_refl 1, ?_, kind⟩
        · rw [← tokens, first]
          rfl
        · simp [Scanned.token, first]
      · rw [List.dropWhile_cons_of_neg blank] at quote
        obtain ⟨next, later, tokens, kind⟩ := exists_string_tokensFrom start quote
        exact ⟨[], next, later, tokens, Nat.zero_le 1, by simp, kind⟩

/-- A token leaves nothing of itself to the tokens behind it, and those by which it is what it is
are there. -/
structure Token.EndsBefore (token : Token) (behind : List Token) : Prop where
  text : token.toLexeme.EndsBefore (behind.flatMap Token.representation)
  whitespace : token.kind = .whitespace → ∀ next ∈ behind.head?, next.kind ≠ .whitespace
  badString : token.kind = .badString → StartsLine behind
  backslash : token.kind = .delim → token.value = ['\\'] →
    StartsLine behind ∨ ∃ last ∈ behind.head?, last.kind = .endOfInput
  url : token.kind = .function → token.value.lower = ['u', 'r', 'l'] → StartsString behind

/-- A token that goes as far as it can in a text ends before the tokens of what is left. -/
theorem Token.endsBefore_tokensFrom {token : Token} {rest : Text}
    (ends : token.toLexeme.EndsBefore rest) (start : Position) :
    token.EndsBefore ((tokensFrom start rest).map Prod.fst) := by
  obtain ⟨behind, tokens⟩ := tokensFrom_eq_cons start rest
  constructor
  · rw [(covers_tokensFrom start rest).flatMap_representation]
    exact ends
  · intro kind next hnext
    rw [tokens, List.map_cons] at hnext
    obtain rfl := Option.some.inj hnext
    simp only [Lexeme.EndsBefore, kind] at ends
    exact Lexeme.kind_read_ne_whitespace ends
  · intro kind
    simp only [Lexeme.EndsBefore, kind] at ends
    exact startsLine_tokensFrom start ends
  · intro kind backslash
    simp only [Lexeme.EndsBefore, kind] at ends
    rcases ends backslash with rfl | feed
    · exact .inr ⟨endToken start, by simp, rfl⟩
    · exact .inl (startsLine_tokensFrom start feed)
  · intro kind url
    simp only [Lexeme.EndsBefore, kind] at ends
    exact startsString_tokensFrom start (ends url)

theorem endsBefore_of_tokensFrom {start : Position} {text : Text}
    {first : Token × Option ParseError} {left : List (Token × Option ParseError)}
    (tokens : tokensFrom start text = first :: left) :
    first.1.EndsBefore (left.map Prod.fst) := by
  by_cases empty : text = []
  · rw [empty, tokensFrom_nil] at tokens
    obtain ⟨rfl, rfl⟩ := List.cons.inj tokens
    exact ⟨trivial, nofun, nofun, nofun, nofun⟩
  · rw [tokensFrom_of_ne_nil empty] at tokens
    obtain ⟨rfl, rfl⟩ := List.cons.inj tokens
    exact Token.endsBefore_tokensFrom (Lexeme.endsBefore_read text) _

/-- The tokens of a source that does not fail go as far as they can, each of them. -/
theorem TokenStream.drain_ends_tokens (units : List UInt32) (reporter : Reporter) :
    ∃ tokens : List Token,
      (ofSource (units.map .unit) reporter).drain.result = tokens.map .ok ∧
      ∀ before token behind, tokens = before ++ token :: behind → token.EndsBefore behind := by
  refine ⟨_, (drain_units units reporter).1, fun before token behind split => ?_⟩
  obtain ⟨found, left, hfound, -, hleft⟩ := List.map_eq_append_iff.mp split
  obtain ⟨first, left, rfl, rfl, rfl⟩ := List.map_eq_cons_iff.mp hleft
  obtain ⟨rest, -, tokens⟩ := tokensFrom_split hfound (List.cons_ne_nil _ _)
  exact endsBefore_of_tokensFrom tokens.symm

end CssSyntax
