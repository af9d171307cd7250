import CssSyntax.Proofs.Places
import CssSyntax.Proofs.Requests
import CssSyntax.Proofs.RoundTrip

/-!
What every token is like, whatever source it was read from and however often that source failed:
which payload its kind has, and what its kind says of its value. The tests that look ahead promise
that the loops behind them take something, and the text read from is normal.
-/

namespace CssSyntax

open CodePoint Text

namespace Kind

/-- The kinds that carry a number. -/
def numerics : List Kind := [number, percentage, dimension]

/-- The kinds that are one fixed code point. -/
def symbols : List Kind :=
  [colon, semicolon, comma, openSquare, closeSquare, openParen, closeParen, openBrace, closeBrace]

/-- What a kind says of the values of its tokens. -/
def Admits (kind : Kind) (value : Text) : Prop :=
  match kind with
  | ident | function | atKeyword | hash => value ≠ []
  | delim => ∃ c, value = [c]
  | whitespace => value ≠ [] ∧ ∀ c ∈ value, c = ' ' ∨ c = '\t' ∨ c = '\n'
  | comment => ¬['*', '/'] <:+: value
  | number | percentage | dimension => ∃ c ∈ value, c.isDigit
  | _ => True

theorem admits_of_mem_symbols {kind : Kind} (symbol : kind ∈ symbols) (value : Text) :
    kind.Admits value := by
  cases kind <;> trivial

end Kind

/-- The payload goes with the kind, the value is one that the kind admits, and nothing is NUL. -/
structure Lexeme.WellFormed (lexeme : Lexeme) : Prop where
  numeric : lexeme.numeric.isSome ↔ lexeme.kind ∈ Kind.numerics
  unit : (lexeme.numeric.bind Numeric.unit).isSome ↔ lexeme.kind = .dimension
  word : ∀ unit ∈ lexeme.numeric.bind Numeric.unit, IsWord unit
  idLike : lexeme.isIdLike → lexeme.kind = .hash
  value : lexeme.kind.Admits lexeme.value
  noNul : '\x00' ∉ lexeme.value

/-- A token is what its kind says, and a delimiter is spelled as the one code point that it is. -/
structure Token.WellFormed (token : Token) : Prop extends token.toLexeme.WellFormed where
  delim : token.kind = .delim → token.representation = token.value

namespace Numeral

/-- A numeral has a digit. -/
theorem exists_digit {n : Numeral} (wf : n.WellFormed) : ∃ c ∈ n.text, c.isDigit := by
  rw [text_eq]
  rcases wf.some_digit with digits | digits
  · obtain ⟨c, mem⟩ := List.exists_mem_of_ne_nil _ digits
    exact ⟨c, by simp [mem], wf.whole c mem⟩
  · obtain ⟨c, mem⟩ := List.exists_mem_of_ne_nil _ digits
    exact ⟨c, by simp [tailText, digits, mem], wf.fraction c mem⟩

theorem nul_notMem_text {n : Numeral} (wf : n.WellFormed) : '\x00' ∉ n.text :=
  wf.notMem_text (by decide)

end Numeral

namespace Lexeme

/-- Without a number and not said to be like an identifier, a lexeme need only have a value that
its kind admits. -/
theorem wellFormed_plain {kind : Kind} {value : Text} (plain : kind ∉ Kind.numerics)
    (admits : kind.Admits value) (noNul : '\x00' ∉ value) :
    WellFormed { kind := kind, value := value } where
  numeric := by simp [plain]
  unit := by
    have : kind ≠ .dimension := fun h => plain (by simp [h, Kind.numerics])
    simp [this]
  word := by simp
  idLike := by simp
  value := admits
  noNul := noNul

/-- What closes a numeral makes it a token with its payload. -/
theorem wellFormed_numeral {n : Numeral} (wf : n.WellFormed) {kind : Kind} {unit : Option Text}
    {tail : Text} (numeric : kind ∈ Kind.numerics) (dimension : unit.isSome ↔ kind = .dimension)
    (word : ∀ name ∈ unit, IsWord name) (noNul : '\x00' ∉ tail) :
    WellFormed { kind := kind, value := n.text ++ tail, numeric := some (payload n unit) } where
  numeric := by simp [numeric]
  unit := by simpa [payload] using dimension
  word := by simpa [payload] using word
  idLike := by simp
  value := by
    obtain ⟨digit, mem, isDigit⟩ := Numeral.exists_digit wf
    have inside : ∃ c ∈ n.text ++ tail, c.isDigit := ⟨digit, List.mem_append_left _ mem, isDigit⟩
    cases kind with
    | number | percentage | dimension => exact inside
    | _ => exact absurd numeric (by decide)
  noNul := by simp [Numeral.nul_notMem_text wf, noNul]

theorem wellFormed_readNumeric {n : Numeral} (wf : n.WellFormed) {rest : Text}
    (noNul : '\x00' ∉ rest) : (readNumeric n rest).lexeme.WellFormed := by
  by_cases percent : rest.head? = some '%'
  · obtain ⟨left, rfl⟩ := List.head?_eq_some_iff.mp percent
    rw [readNumeric_percentage]
    exact wellFormed_numeral wf (by decide) (by decide) (by simp) (by decide)
  · by_cases identifier : (Lookahead.ofText rest).startsIdentifier
    · have word := isWord_read noNul (Lookahead.continuesName_of_startsIdentifier identifier)
      rw [readNumeric_dimension n identifier]
      exact wellFormed_numeral wf (by decide) (by simp) (by simpa using word) word.noNul
    · rw [readNumeric_number n percent identifier, ← List.append_nil n.text]
      exact wellFormed_numeral wf (by decide) (by decide) (by simp) List.not_mem_nil

theorem wellFormed_readString (quote : Char) {text : Text} (noNul : '\x00' ∉ text) :
    (readString quote text).lexeme.WellFormed := by
  have clean := Quoted.nul_notMem_read quote noNul
  simp only [readString]
  split
  · exact wellFormed_plain (by decide) trivial clean
  · exact wellFormed_plain (by decide) trivial clean

theorem wellFormed_readUrl {name text : Text} (word : IsWord name) (noNul : '\x00' ∉ text) :
    (readUrl name text).lexeme.WellFormed := by
  have clean := Url.nul_notMem_read_dropWhile noNul
  simp only [readUrl]
  split
  · exact wellFormed_plain (by decide) word.nonempty word.noNul
  · simp only
    split
    · exact wellFormed_plain (by decide) trivial clean
    · exact wellFormed_plain (by decide) trivial clean

theorem wellFormed_readIdentLike {text : Text} (noNul : '\x00' ∉ text)
    (identifier : (Lookahead.ofText text).startsIdentifier) :
    (readIdentLike text).lexeme.WellFormed := by
  have word := isWord_read noNul (Lookahead.continuesName_of_startsIdentifier identifier)
  by_cases call : (Name.read text).2.head? = some '('
  · obtain ⟨rest, hrest⟩ := List.head?_eq_some_iff.mp call
    have behind := Name.nul_notMem_rest noNul
    rw [hrest, List.mem_cons, not_or] at behind
    rw [readIdentLike_call hrest]
    split
    · exact wellFormed_readUrl word behind.2
    · exact wellFormed_plain (by decide) word.nonempty word.noNul
  · rw [readIdentLike_ident call]
    exact wellFormed_plain (by decide) word.nonempty word.noNul

theorem wellFormed_hash {rest : Text} (noNul : '\x00' ∉ rest)
    (name : (Lookahead.ofText rest).continuesName) (isIdLike : Bool) :
    WellFormed { kind := .hash, value := (Name.read rest).1, isIdLike := isIdLike } where
  numeric := by simp [Kind.numerics]
  unit := by simp
  word := by simp
  idLike := fun _ => rfl
  value := Name.read_ne_nil name
  noNul := Name.nul_notMem_read noNul

theorem nul_notMem_head {c : Char} {rest : Text} (noNul : '\x00' ∉ c :: rest) : '\x00' ∉ [c] :=
  fun nul => noNul (by simpa using .inl (List.mem_singleton.mp nul))

/-- A lexeme read off a text without NUL is well formed, however it starts. -/
theorem wellFormed_read {text : Text} (noNul : '\x00' ∉ text) : (read text).lexeme.WellFormed := by
  have reading := reading_read text
  generalize read text = scanned at reading ⊢
  cases reading with
  | endOfInput => exact wellFormed_plain (by decide) trivial List.not_mem_nil
  | @whitespace c rest blank =>
      have blanks : ∀ d ∈ c :: rest.takeWhile isWhitespace, isWhitespace d :=
        List.forall_mem_cons.mpr ⟨blank, fun d => of_mem_takeWhile⟩
      refine wellFormed_plain (by decide) ⟨by simp, fun d mem => ?_⟩ fun nul => ?_
      · simpa [isWhitespace, or_assoc] using blanks d mem
      · exact absurd (blanks _ nul) (by decide)
  | @string c rest quote => exact wellFormed_readString c (mt (List.mem_cons_of_mem c) noNul)
  | @symbol c kind rest symbol =>
      have noNumber : ∀ symbol ∈ Kind.symbols, symbol ∉ Kind.numerics := by decide
      have isSymbol := kind_of_symbol symbol
      exact wellFormed_plain (noNumber kind isSymbol) (Kind.admits_of_mem_symbols isSymbol _)
        (nul_notMem_head noNul)
  | @numeric c rest after n start numeral =>
      obtain ⟨split, wf, -⟩ := Numeral.read_eq_some_iff.mp numeral
      exact wellFormed_readNumeric wf fun nul => noNul (by rw [split]; simp [nul])
  | cdc => exact wellFormed_plain (by decide) trivial (by decide)
  | identLike start number mark identifier => exact wellFormed_readIdentLike noNul identifier
  | @comment inside =>
      refine wellFormed_plain (by decide) (Comment.closing_notIn_content inside) fun nul => noNul ?_
      simp [Comment.mem_content inside _ nul]
  | cdo => exact wellFormed_plain (by decide) trivial (by decide)
  | @hash rest name => exact wellFormed_hash (mt (List.mem_cons_of_mem '#') noNul) name _
  | @atKeyword rest identifier =>
      have word := isWord_read (mt (List.mem_cons_of_mem '@') noNul)
        (Lookahead.continuesName_of_startsIdentifier identifier)
      exact wellFormed_plain (by decide) word.nonempty word.noNul
  | @delim c rest alone =>
      exact wellFormed_plain (by decide) ⟨c, rfl⟩ (nul_notMem_head noNul)

end Lexeme

/-- A delimiter takes the one code point that it is. -/
theorem Token.wellFormed_read {text : Text} (noNul : '\x00' ∉ text) (start : Position) :
    ((Lexeme.read text).token text start).WellFormed where
  toWellFormed := Lexeme.wellFormed_read noNul
  delim := by
    have reading := Lexeme.reading_read text
    generalize Lexeme.read text = scanned at reading ⊢
    intro isDelim
    change scanned.lexeme.kind = .delim at isDelim
    cases reading with
    | @delim c rest alone =>
        have split : c :: rest = [c] ++ (Lexeme.delimited c rest).rest := rfl
        exact Scanned.representation_of_split split start
    | symbol symbol =>
        cases isDelim
        exact absurd (Lexeme.kind_of_symbol symbol) (by decide)
    | string => exact absurd (isDelim ▸ Lexeme.kind_readString _ _) (by decide)
    | numeric => exact absurd (isDelim ▸ Lexeme.kind_readNumeric _ _) (by decide)
    | identLike => exact absurd (isDelim ▸ Lexeme.kind_readIdentLike _) (by decide)
    | _ => cases isDelim

namespace TokenStream

/-- A call of `next` gives well-formed tokens only, wherever the calls before it have left the
stream. -/
theorem wellFormed_of_next {source : Source} {reporter : Reporter} {count : Nat} {token : Token}
    (h : ((ofSource source reporter).after count).next.result = .ok token) : token.WellFormed := by
  have normal := (behind_committed source reporter count).begin.isNormal_text
  rw [token_of_next h]
  exact Token.wellFormed_read normal.nul_notMem _

/-- In every run, over every source and in whatever way the tokens are asked for, each token given
is well formed. -/
theorem wellFormed_of_answer {source : Source} {reporter : Reporter} {asked : List Request}
    {request : Request} {token : Token}
    (h : (((ofSource source reporter).afterAll asked).answer request).result = some (.ok token)) :
    token.WellFormed := by
  obtain ⟨count, finished, hafter⟩ := exists_afterAll (ofSource source reporter) asked
  rw [hafter] at h
  rcases answer_cases (((ofSource source reporter).after count).marked finished) request with
    idle | ⟨ended, answered⟩
  · rw [idle] at h
    cases h
  · rw [answered, next_marked] at h
    exact wellFormed_of_next (Option.some.inj h)

/-- A dimension behind a failure that came in the middle of a number. -/
theorem wellFormed_of_answer_behind_failure :
    let source : Source :=
      [.unit 0x34, .failure ⟨"interrupted"⟩, .unit 0x35, .unit 0x70, .unit 0x78]
    let token : Token :=
      ⟨⟨.dimension, ['5', 'p', 'x'], some ⟨.ofDecimal false 5 0, true, false, some ['p', 'x']⟩,
        false⟩, ['5', 'p', 'x'], ⟨1, 1, 2⟩⟩
    (((ofSource source .discarding).afterAll [.next]).answer .iterate).result =
        some (.ok token) ∧
      token.WellFormed := by
  intro source token
  have given : (((ofSource source .discarding).afterAll [.next]).answer .iterate).result =
      some (.ok token) := by decide +kernel
  exact ⟨given, wellFormed_of_answer given⟩

end TokenStream

end CssSyntax
