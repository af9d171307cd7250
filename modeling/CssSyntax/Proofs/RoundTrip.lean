import CssSyntax.Proofs.Boundaries
import CssSyntax.Proofs.Identifiers
import CssSyntax.Proofs.Relexing
import CssSyntax.Proofs.Values
import CssSyntax.Serialize

/-!
The CSS text of a token is read back as that token. Numbers are left out, since their text is made
from their value, and so are tokens that mark an error and functions that would be read as urls.
-/

namespace CssSyntax

open CodePoint Text

/-- The kinds of token that mark the end or an error, or whose text is made from a number. -/
def irregularKinds : List Kind :=
  [.endOfInput, .badString, .badUrl, .number, .percentage, .dimension]

/-- A value that a name can have. -/
structure IsWord (value : Text) : Prop where
  nonempty : value ≠ []
  noNul : '\x00' ∉ value

/-- A name that starts no identifier when it is written as it is. -/
def Unrestricted (value : Text) : Prop :=
  ∃ c rest, value = c :: rest ∧
    (c.isDigit ∨ c = '-' ∧ ∀ d ∈ rest.head?, d.isDigit)

theorem IsWord.read_written {value : Text} (word : IsWord value) {rest : Text}
    (ends : ¬(Lookahead.ofText rest).continuesName) :
    Name.read (Identifier.written value ++ rest) = (value, rest) := by
  rw [Identifier.read_written, Name.read_of_not_continuesName ends,
    Text.replaceNul_eq_self word.noNul, List.append_nil]

theorem IsWord.read_name {value : Text} (word : IsWord value) {rest : Text}
    (ends : ¬(Lookahead.ofText rest).continuesName) :
    Name.read (Name.written value ++ rest) = (value, rest) := by
  rw [Name.read_written, Name.read_of_not_continuesName ends,
    Text.replaceNul_eq_self word.noNul, List.append_nil]

/-- What is written for an unrestricted name goes on a name, but starts no identifier. -/
theorem Unrestricted.written {value : Text} (h : Unrestricted value) {rest : Text}
    (ends : ¬(Lookahead.ofText rest).continuesName) :
    (Lookahead.ofText (Name.written value ++ rest)).continuesName ∧
      (Lookahead.ofText (Name.written value ++ rest)).startsIdentifier = false := by
  have notBegins {c : Char} (more : Text) (digit : c.isDigit) : ¬Name.Begins (c :: more) :=
    fun begins => by simpa [digit] using begins.2 c rfl
  have digitForm {c : Char} (digit : c.isDigit) : Name.form? c = none :=
    Name.form?_of_isName (by simp [isName, digit])
  rw [← Bool.not_eq_true, Name.startsIdentifier_iff]
  obtain ⟨c, more, rfl, digit | ⟨rfl, digit⟩⟩ := h
  · rw [Name.written_cons, digitForm digit]
    refine ⟨(Name.continuesName_cons_iff _ _).mpr (.inl (by simp [isName, digit])), ?_⟩
    exact fun start => notBegins _ digit start.1
  · have hyphenForm : Name.form? '-' = none := Name.form?_of_isName (by decide)
    rw [Name.written_cons, hyphenForm]
    refine ⟨(Name.continuesName_cons_iff _ _).mpr (.inl (by decide)), fun start => ?_⟩
    have behind : Name.Begins (Name.written more ++ rest) := start.2 rfl
    cases more with
    | nil => exact ends behind.1
    | cons d more =>
        rw [Name.written_cons, digitForm (digit d rfl)] at behind
        exact notBegins _ (digit d rfl) behind

/-- Neither blanks nor quotes come first in the text of a url. -/
theorem Url.head_contentPieces (content rest : Text) :
    ∀ c ∈ ((contentPieces content).flatten ++ ')' :: rest).head?,
      isWhitespace c = false ∧ c ≠ '"' ∧ c ≠ '\'' := by
  cases content with
  | nil =>
      rintro c ⟨⟩
      decide
  | cons d content =>
      have front : (contentPieces (d :: content)).flatten =
          (form? d).getD [d] ++ Escape.replace form? content :=
        flatten_contentPieces (d :: content)
      rw [front]
      cases h : form? d with
      | none =>
          rintro c ⟨⟩
          obtain ⟨_, _, notBlank, clean, _⟩ := plain_of_form? h
          simp only [spoils, Bool.or_eq_true, beq_iff_eq, not_or] at clean
          exact ⟨by simpa using notBlank, clean.1.1.1, clean.1.1.2⟩
      | some form =>
          rcases escape_of_form? h with ⟨rfl, _⟩ | ⟨rfl, _⟩
          · rintro c ⟨⟩
            decide
          · rintro c ⟨⟩
            decide

/-- The text of a string, from its quote on. -/
theorem Lexeme.read_written_string (content rest : Text) :
    Lexeme.read ('"' :: ((Quoted.contentPieces content).flatten ++ '"' :: rest)) =
      { lexeme := { kind := .string, value := content.replaceNul }, rest := rest } := by
  rw [(Reading.string (.inl rfl)).read_eq, readString, Quoted.read_contentPieces]
  rfl

/-- The text of a url, from its name on. -/
theorem Lexeme.read_written_url (content rest : Text) :
    Lexeme.read ('u' :: 'r' :: 'l' :: '(' :: ((Url.contentPieces content).flatten ++ ')' :: rest)) =
      { lexeme := { kind := .url, value := content.replaceNul }, rest := rest } := by
  have first := Url.head_contentPieces content rest
  have whole := Url.read_contentPieces content rest
  generalize (Url.contentPieces content).flatten ++ ')' :: rest = inside at first whole ⊢
  have name : Name.read ('u' :: 'r' :: 'l' :: '(' :: inside) =
      (['u', 'r', 'l'], '(' :: inside) := by
    have ends : Name.read ('(' :: inside) = ([], '(' :: inside) :=
      Name.read_of_not_continuesName (by simp [Name.continuesName_cons_iff, isName, isNameStart])
    rw [Name.read_of_name (by decide), Name.read_of_name (by decide),
      Name.read_of_name (by decide), ends]
  have start : (Lookahead.ofText ('u' :: 'r' :: 'l' :: '(' :: inside)).startsIdentifier := by
    simp [Lookahead.ofText, Lookahead.startsIdentifier, isNameStart]
  have stays : inside.dropWhile isWhitespace = inside := by
    have stops : StopsAt isWhitespace inside := fun c hc => (first c hc).1
    exact @dropWhile_run isWhitespace [] inside (by simp) stops
  have noQuote : ¬(inside.head? = some '"' ∨ inside.head? = some '\'') := by
    rintro (quote | quote)
    · exact (first _ quote).2.1 rfl
    · exact (first _ quote).2.2 rfl
  have isUrl : isUrlName ['u', 'r', 'l'] := by decide
  rw [read_of_startsIdentifier start (by simp [cdcMark]),
    readIdentLike_call (congrArg Prod.snd name), name, if_pos isUrl, readUrl_url, stays, whole]
  · rfl
  · rw [stays]
    exact noQuote

namespace Lexeme

/-- The lexemes that are read back from their CSS text. -/
inductive Writable : Lexeme → Prop where
  | comment {value : Text} (normal : value.IsNormal) (inside : ¬['*', '/'] <:+: value) :
      Writable { kind := .comment, value := value }
  | ident {value : Text} (word : IsWord value) : Writable { kind := .ident, value := value }
  | function {value : Text} (word : IsWord value) (notUrl : ¬isUrlName value) :
      Writable { kind := .function, value := value }
  | atKeyword {value : Text} (word : IsWord value) : Writable { kind := .atKeyword, value := value }
  | idHash {value : Text} (word : IsWord value) :
      Writable { kind := .hash, value := value, isIdLike := true }
  | hash {value : Text} (word : IsWord value) (unrestricted : Unrestricted value) :
      Writable { kind := .hash, value := value }
  | string {value : Text} (noNul : '\x00' ∉ value) : Writable { kind := .string, value := value }
  | url {value : Text} (noNul : '\x00' ∉ value) : Writable { kind := .url, value := value }
  | whitespace {value : Text} (nonempty : value ≠ []) (blank : ∀ c ∈ value, isWhitespace c) :
      Writable { kind := .whitespace, value := value }
  | delim {c : Char} (alone : StandsAlone c []) (normal : Text.IsNormal [c]) :
      Writable { kind := .delim, value := [c] }
  | symbol {c : Char} {kind : Kind} (symbol : Kind.ofSymbol? c = some kind) :
      Writable { kind := kind, value := [c] }
  | cdo : Writable { kind := .cdo, value := cdoMark }
  | cdc : Writable { kind := .cdc, value := cdcMark }

theorem css_comment (value : Text) :
    css { kind := .comment, value := value } = ['/', '*'] ++ (value ++ ['*', '/']) := by
  simp [css, pieces]

theorem css_ident (value : Text) :
    css { kind := .ident, value := value } = Identifier.written value := by
  simp [css, pieces, Identifier.written]

theorem css_function (value : Text) :
    css { kind := .function, value := value } = Identifier.written value ++ ['('] := by
  simp [css, pieces, Identifier.written]

theorem css_atKeyword (value : Text) :
    css { kind := .atKeyword, value := value } = ['@'] ++ Identifier.written value := by
  simp [css, pieces, Identifier.written]

theorem css_idHash (value : Text) :
    css { kind := .hash, value := value, isIdLike := true } =
      ['#'] ++ Identifier.written value := by
  simp [css, pieces, Identifier.written]

theorem css_hash (value : Text) :
    css { kind := .hash, value := value } = ['#'] ++ Name.written value := by
  simp [css, pieces, Name.written]

theorem css_string (value : Text) :
    css { kind := .string, value := value } =
      ['"'] ++ ((Quoted.contentPieces value).flatten ++ ['"']) := by
  simp [css, pieces, Quoted.pieces]

theorem css_url (value : Text) :
    css { kind := .url, value := value } =
      ['u', 'r', 'l', '('] ++ ((Url.contentPieces value).flatten ++ [')']) := by
  simp [css, pieces]

theorem css_whitespace (value : Text) : css { kind := .whitespace, value := value } = value := by
  simp [css, pieces]

theorem css_symbol {c : Char} {kind : Kind} (symbol : Kind.ofSymbol? c = some kind) :
    css { kind := kind, value := [c] } = [c] := by
  unfold Kind.ofSymbol? at symbol
  split at symbol <;> cases symbol <;> rfl

/-- What is written as an identifier is read as one, or as the name of a function. -/
theorem read_written {value : Text} (word : IsWord value) {rest : Text}
    (notMark : value = ['-', '-'] → rest.head? ≠ some '>') :
    read (Identifier.written value ++ rest) = readIdentLike (Identifier.written value ++ rest) :=
  read_of_startsIdentifier (Identifier.startsIdentifier_written word.nonempty rest)
    (Identifier.not_cdcMark_written word.nonempty notMark)

/-- A function is read by its name, whatever is inside. -/
theorem read_css_function {value : Text} (word : IsWord value) (rest : Text) :
    read (css { kind := .function, value := value } ++ rest) =
      if isUrlName value then readUrl value rest
      else { lexeme := { kind := .function, value := value }, rest := rest } := by
  have name : Name.read (Identifier.written value ++ '(' :: rest) = (value, '(' :: rest) :=
    word.read_written (by simp [Name.continuesName_cons_iff, isName, isNameStart])
  rw [css_function, List.append_assoc, List.singleton_append, read_written word (by simp),
    readIdentLike_call (congrArg Prod.snd name), name]

/-- A lexeme is read back from its CSS text, with nothing left open, in front of any text that does
not run into it. -/
theorem Writable.read_css_append {lexeme : Lexeme} (h : Writable lexeme) {rest : Text}
    (stays : lexeme.StaysBefore rest) :
    read (lexeme.css ++ rest) = { lexeme := lexeme, rest := rest } := by
  cases h with
  | @comment value normal inside =>
      have whole := Comment.read_append inside rest
      rw [css_comment, List.append_assoc, List.append_assoc]
      change read ('/' :: '*' :: (value ++ '*' :: '/' :: rest)) = _
      rw [Reading.comment.read_eq, readComment, whole]
      rfl
  | @ident value word =>
      obtain ⟨ends, notCall⟩ : ¬(Lookahead.ofText rest).continuesName ∧ rest.head? ≠ some '(' :=
        stays.ends
      have name := word.read_written ends
      rw [css_ident, read_written word (stays.hyphens rfl), readIdentLike_ident (by rwa [name]),
        name]
  | @function value word notUrl =>
      rw [read_css_function word, if_neg notUrl]
  | @atKeyword value word =>
      have start := Identifier.startsIdentifier_written word.nonempty rest
      rw [css_atKeyword, List.append_assoc, List.singleton_append,
        (Reading.atKeyword start).read_eq, word.read_written stays.ends]
  | @idHash value word =>
      have start := Identifier.startsIdentifier_written word.nonempty rest
      have continues := Lookahead.continuesName_of_startsIdentifier start
      rw [css_idHash, List.append_assoc, List.singleton_append, (Reading.hash continues).read_eq,
        word.read_written stays.ends, start]
  | @hash value word unrestricted =>
      obtain ⟨continues, noStart⟩ := unrestricted.written stays.ends
      rw [css_hash, List.append_assoc, List.singleton_append, (Reading.hash continues).read_eq,
        word.read_name stays.ends, noStart]
  | @string value noNul =>
      have whole := read_written_string value rest
      rw [Text.replaceNul_eq_self noNul] at whole
      rw [css_string, List.append_assoc, List.append_assoc]
      exact whole
  | @url value noNul =>
      have whole := read_written_url value rest
      rw [Text.replaceNul_eq_self noNul] at whole
      rw [css_url, List.append_assoc, List.append_assoc]
      exact whole
  | @whitespace value nonempty blank =>
      obtain ⟨c, run, rfl⟩ := List.exists_cons_of_ne_nil nonempty
      obtain ⟨first, blank⟩ := List.forall_mem_cons.mp blank
      rw [css_whitespace, List.cons_append, (Reading.whitespace first).read_eq,
        takeWhile_run blank stays.ends, dropWhile_run blank stays.ends]
  | @delim c alone normal => exact (Reading.delim (stays.alone rfl c rfl)).read_eq
  | @symbol c kind symbol =>
      rw [css_symbol symbol]
      exact (Reading.symbol symbol).read_eq
  | cdo => exact Reading.cdo.read_eq
  | cdc => exact Reading.cdc.read_eq

/-- Every lexeme may come last. -/
theorem Writable.staysBefore_nil {lexeme : Lexeme} (h : Writable lexeme) :
    lexeme.StaysBefore [] := by
  have noName : ¬(Lookahead.ofText []).continuesName := by decide
  cases h with
  | ident word => exact ⟨⟨noName, by decide⟩, fun _ _ => by decide, nofun⟩
  | atKeyword word => exact ⟨noName, nofun, nofun⟩
  | idHash word => exact ⟨noName, nofun, nofun⟩
  | hash word unrestricted => exact ⟨noName, nofun, nofun⟩
  | whitespace nonempty blank => exact ⟨stopsAt_nil isWhitespace, nofun, nofun⟩
  | function word notUrl =>
      exact ⟨fun isUrl => absurd ((isUrlName_iff _).mpr isUrl) notUrl, nofun, nofun⟩
  | @delim c alone normal =>
      refine ⟨fun _ => .inl rfl, nofun, fun _ d same => ?_⟩
      rwa [← List.singleton_inj.mp same]
  | @symbol c kind symbol =>
      unfold Kind.ofSymbol? at symbol
      split at symbol <;> cases symbol <;> exact ⟨trivial, nofun, nofun⟩
  | _ => exact ⟨trivial, nofun, nofun⟩

/-- A lexeme is read back from its CSS text, with nothing left open and nothing left over. -/
theorem Writable.read_css {lexeme : Lexeme} (h : Writable lexeme) :
    read lexeme.css = { lexeme := lexeme, rest := [] } := by
  have whole := h.read_css_append h.staysBefore_nil
  rwa [List.append_nil] at whole

/-- The CSS text of a lexeme stays as it is when it is normalized. -/
theorem Writable.isNormal_css {lexeme : Lexeme} (h : Writable lexeme) : lexeme.css.IsNormal := by
  cases h with
  | @comment value normal inside =>
      rw [css_comment]
      simp [normal]
  | @ident value word =>
      rw [css_ident]
      exact Identifier.isNormal_written value
  | @function value word notUrl =>
      rw [css_function]
      simp
  | @atKeyword value word =>
      rw [css_atKeyword]
      simp
  | @idHash value word =>
      rw [css_idHash]
      simp
  | @hash value word unrestricted =>
      rw [css_hash]
      simp
  | @string value noNul =>
      rw [css_string]
      simp
  | @url value noNul =>
      rw [css_url]
      simp
  | @whitespace value nonempty blank =>
      rw [css_whitespace]
      intro c hc
      have space := blank c hc
      refine ⟨?_, ?_, ?_⟩ <;> rintro rfl <;> exact absurd space (by decide)
  | @delim c alone normal => exact normal
  | @symbol c kind symbol =>
      rw [css_symbol symbol]
      refine List.forall_mem_singleton.mpr ⟨?_, ?_, ?_⟩ <;> rintro rfl <;> cases symbol
  | cdo => simp [css, pieces, cdoMark]
  | cdc => simp [css, pieces, cdcMark]

theorem Writable.css_ne_nil {lexeme : Lexeme} (h : Writable lexeme) : lexeme.css ≠ [] := by
  intro empty
  have whole := h.read_css
  rw [empty] at whole
  have ended : lexeme = .endOfInput := (congrArg Scanned.lexeme whole).symm
  cases h with
  | symbol symbol =>
      rw [css_symbol symbol] at empty
      cases empty
  | _ => cases ended

theorem Writable.numeric_eq_none {lexeme : Lexeme} (h : Writable lexeme) :
    lexeme.numeric = none := by
  cases h <;> rfl

theorem isWord_read {text : Text} (noNul : '\x00' ∉ text)
    (name : (Lookahead.ofText text).continuesName) : IsWord (Name.read text).1 :=
  ⟨Name.read_ne_nil name, Name.nul_notMem_read noNul⟩

/-- A name that starts no identifier is read to an unrestricted one. -/
theorem unrestricted_read {text : Text} (name : (Lookahead.ofText text).continuesName)
    (noStart : ¬(Lookahead.ofText text).startsIdentifier) : Unrestricted (Name.read text).1 := by
  cases text with
  | nil => exact absurd name (by decide)
  | cons c rest =>
      by_cases digit : c.isDigit
      · rw [Name.read_of_name (by simp [isName, digit])]
        exact ⟨c, _, rfl, .inl digit⟩
      · have begins : Name.Begins (c :: rest) := ⟨name, by simpa using digit⟩
        rw [Name.startsIdentifier_iff, not_and] at noStart
        have hyphen := noStart begins
        rw [List.head?_cons, List.tail_cons, Classical.not_imp] at hyphen
        obtain ⟨same, notBegins⟩ := hyphen
        cases same
        rw [Name.read_of_name (by decide)]
        refine ⟨'-', _, rfl, .inr ⟨rfl, fun d hd => ?_⟩⟩
        by_cases more : (Lookahead.ofText rest).continuesName
        · obtain ⟨e, he, digit⟩ : ∃ e ∈ rest.head?, e.isDigit := by
            simpa [Name.Begins, more] using notBegins
          obtain ⟨tail, rfl⟩ := List.head?_eq_some_iff.mp he
          rw [Name.read_of_name (by simp [isName, digit])] at hd
          cases hd
          exact digit
        · rw [Name.read_of_not_continuesName more] at hd
          cases hd

theorem writable_readIdentLike {text : Text} (noNul : '\x00' ∉ text)
    (word : IsWord (Name.read text).1) (regular : (readIdentLike text).lexeme.kind ∉ irregularKinds)
    (notUrl : (readIdentLike text).lexeme.kind = .function →
      ¬isUrlName (readIdentLike text).lexeme.value) :
    Writable (readIdentLike text).lexeme := by
  by_cases call : (Name.read text).2.head? = some '('
  · obtain ⟨rest, hrest⟩ := List.head?_eq_some_iff.mp call
    rw [readIdentLike_call hrest] at regular notUrl ⊢
    by_cases isUrl : isUrlName (Name.read text).1
    · rw [if_pos isUrl] at regular notUrl ⊢
      by_cases quote : (rest.dropWhile isWhitespace).head? = some '"' ∨
          (rest.dropWhile isWhitespace).head? = some '\''
      · rw [readUrl_function _ quote] at notUrl
        exact absurd isUrl (notUrl rfl)
      · rw [readUrl_url _ quote] at regular ⊢
        by_cases good : (Url.read (rest.dropWhile isWhitespace)).good
        · have behind := Name.nul_notMem_rest noNul
          rw [hrest, List.mem_cons, not_or] at behind
          rw [good, if_pos rfl]
          exact .url (Url.nul_notMem_read_dropWhile behind.2)
        · rw [if_neg good] at regular
          exact absurd (by simp [irregularKinds]) regular
    · rw [if_neg isUrl]
      exact .function word isUrl
  · rw [readIdentLike_ident call]
    exact .ident word

/-- What is read from normal text is written so that it is read back. -/
theorem writable_read {text : Text} (normal : text.IsNormal)
    (regular : (read text).lexeme.kind ∉ irregularKinds)
    (notUrl : (read text).lexeme.kind = .function → ¬isUrlName (read text).lexeme.value) :
    Writable (read text).lexeme := by
  have reading := reading_read text
  have noNul : '\x00' ∉ text := normal.nul_notMem
  generalize read text = scanned at reading regular notUrl ⊢
  cases reading with
  | endOfInput => exact absurd (by decide) regular
  | @whitespace c rest blank =>
      refine .whitespace (by simp) (List.forall_mem_cons.mpr ⟨blank, fun d => of_mem_takeWhile⟩)
  | @string c rest quote =>
      by_cases feed : (Quoted.read c rest).ending = .lineFeed
      · have broken : (readString c rest).lexeme.kind = .badString := if_pos feed
        exact absurd (by rw [broken]; decide) regular
      · have lexeme : (readString c rest).lexeme =
            { kind := .string, value := (Quoted.read c rest).content } := by
          simp [readString, feed]
        rw [lexeme]
        exact .string (Quoted.nul_notMem_read c (mt (List.mem_cons_of_mem c) noNul))
  | @symbol c kind rest symbol => exact .symbol symbol
  | @numeric c rest after n start numeral =>
      have number : ∀ kind ∈ [Kind.number, .percentage, .dimension], kind ∈ irregularKinds := by
        decide
      exact absurd (number _ (kind_readNumeric n after)) regular
  | cdc => exact .cdc
  | @identLike c rest start number mark identifier =>
      have word := isWord_read noNul (Lookahead.continuesName_of_startsIdentifier identifier)
      exact writable_readIdentLike noNul word regular notUrl
  | @comment inside =>
      refine .comment (fun c hc => normal c ?_) (Comment.closing_notIn_content inside)
      exact List.mem_cons_of_mem _ (List.mem_cons_of_mem _ (Comment.mem_content inside c hc))
  | cdo => exact .cdo
  | @hash rest name =>
      have word := isWord_read (mt (List.mem_cons_of_mem '#') noNul) name
      by_cases start : (Lookahead.ofText rest).startsIdentifier
      · rw [start]
        exact .idHash word
      · have unrestricted := unrestricted_read name start
        rw [Bool.not_eq_true] at start
        rw [start]
        exact .hash word unrestricted
  | @atKeyword rest identifier =>
      have name := Lookahead.continuesName_of_startsIdentifier identifier
      exact .atKeyword (isWord_read (mt (List.mem_cons_of_mem '@') noNul) name)
  | @delim c rest alone =>
      refine .delim (alone.near (near_nil rest)) fun d hd => normal d ?_
      rw [List.mem_singleton.mp hd]
      exact List.mem_cons_self

end Lexeme

/-- A token written as CSS text is read back as one token of its kind, with its value and flag, and
no error is reported. -/
theorem tokenize_css {input : Text} {token : Token} (mem : token ∈ tokenize input)
    (regular : token.kind ∉ irregularKinds)
    (notUrl : token.kind = .function → token.value.lower ≠ ['u', 'r', 'l']) :
    tokenize token.css =
        [⟨⟨token.kind, token.value, none, token.isIdLike⟩, token.css, .start⟩,
          endToken (.after .start token.css)] ∧
      parseErrors token.css = [] := by
  obtain ⟨found, hfound, rfl⟩ := List.mem_map.mp mem
  have notEnd : found.1.kind ≠ .endOfInput := by
    intro ended
    rw [ended] at regular
    exact regular (by decide)
  obtain ⟨front, behind, place, split, nonempty, rfl⟩ := exists_read_of_mem hfound notEnd
  have normal : behind.IsNormal := by
    have all := Units.isNormal_normalize (Units.ofText input)
    rw [split] at all
    exact (Text.isNormal_append.mp all).2
  have writable : (Lexeme.read behind).lexeme.Writable :=
    Lexeme.writable_read normal regular fun function isUrl =>
      notUrl function ((isUrlName_iff _).mp isUrl)
  have again := writable.read_css
  have taken : (Lexeme.read behind).lexeme.css ≠ [] := writable.css_ne_nil
  rw [tokenize, parseErrors, Scanned.token, Units.normalize_ofText writable.isNormal_css,
    tokensFrom_of_whole taken (by rw [again]), again]
  refine ⟨?_, rfl⟩
  rw [List.map_cons, ← writable.numeric_eq_none]
  rfl

/-- A hash with a digit behind it is no identifier, and is written without an escape. -/
theorem tokenize_css_digit :
    let hash : Token := ⟨{ kind := .hash, value := ['1'] }, ['#', '1'], .start⟩
    hash ∈ tokenize ['#', '1', ';'] ∧
      (tokenize hash.css =
          [⟨⟨hash.kind, hash.value, none, hash.isIdLike⟩, hash.css, .start⟩,
            endToken (.after .start hash.css)] ∧
        parseErrors hash.css = []) := by
  intro hash
  have name : Name.read ['1', ';'] = (['1'], [';']) := by
    rw [Name.read_of_name (by decide), Name.read_of_not_continuesName (by decide)]
  have first : Lexeme.read ['#', '1', ';'] =
      { lexeme := { kind := .hash, value := ['1'] }, rest := [';'] } := by
    rw [(Lexeme.Reading.hash (by decide)).read_eq, name]
    rfl
  have mem : hash ∈ tokenize ['#', '1', ';'] := by
    rw [tokenize, Units.normalize_ofText (by simp),
      tokensFrom_of_ne_nil (by decide), first]
    exact List.mem_cons_self
  exact ⟨mem, tokenize_css mem (by decide) (by decide)⟩

end CssSyntax
