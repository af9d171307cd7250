import CssSyntax.Proofs.Fronts
import CssSyntax.Proofs.RoundTrip

/-!
Tokens written one behind another. The spelling of each may change, but not what it begins with, and
by that alone a token can run into the one before it. So the tokens of a text are read back from
what is written for them, apart from those that make up a comment mark of style sheets once escapes
are gone.
-/

namespace CssSyntax

open CodePoint Text

/-- The lexemes of a text, through the end of the input. -/
def lexemes (text : Text) : List Lexeme :=
  (tokensFrom .start text).map fun found => found.1.toLexeme

theorem toLexeme_tokensFrom (start other : Position) (text : Text) :
    (tokensFrom start text).map (fun found => found.1.toLexeme) =
      (tokensFrom other text).map fun found => found.1.toLexeme := by
  induction start, text using tokensFrom_induction generalizing other with
  | endOfInput start => simp
  | token start text nonempty ih =>
      rw [tokensFrom_of_ne_nil nonempty, tokensFrom_of_ne_nil nonempty, List.map_cons,
        List.map_cons, ih]
      rfl

@[simp] theorem lexemes_nil : lexemes [] = [.endOfInput] := by
  simp [lexemes]

theorem lexemes_of_ne_nil {text : Text} (h : text ≠ []) :
    lexemes text = (Lexeme.read text).lexeme :: lexemes (Lexeme.read text).rest := by
  rw [lexemes, tokensFrom_of_ne_nil h, List.map_cons, toLexeme_tokensFrom _ .start]
  rfl

theorem lexemes_eq_cons (text : Text) :
    ∃ behind, lexemes text = (Lexeme.read text).lexeme :: behind := by
  obtain ⟨behind, tokens⟩ := tokensFrom_eq_cons .start text
  exact ⟨_, by rw [lexemes, tokens, List.map_cons]; rfl⟩

/-- Induction along the lexemes of a text. -/
@[elab_as_elim]
theorem lexemes_induction {motive : Text → Prop} (endOfInput : motive [])
    (lexeme : ∀ text, text ≠ [] → motive (Lexeme.read text).rest → motive text) (text : Text) :
    motive text :=
  @tokensFrom_induction (fun _ => motive) (fun _ => endOfInput) (fun _ => lexeme) .start text

/-- The lexemes behind blanks are those of the text, without the first one if it is blank. -/
theorem lexemes_dropWhile (text : Text) :
    lexemes (text.dropWhile isWhitespace) =
      if (Lexeme.read text).lexeme.kind = .whitespace then (lexemes text).tail
      else lexemes text := by
  by_cases blank : ∃ c rest, text = c :: rest ∧ isWhitespace c
  · obtain ⟨c, rest, rfl, blank⟩ := blank
    have first := Lexeme.read_of_blank blank rest
    rw [lexemes_of_ne_nil (List.cons_ne_nil c rest), first, if_pos rfl,
      List.dropWhile_cons_of_pos blank]
    rfl
  · have stops : StopsAt isWhitespace text := by
      intro c first
      obtain ⟨rest, rfl⟩ := List.head?_eq_some_iff.mp first
      exact Bool.eq_false_iff.mpr fun found => blank ⟨c, rest, rfl, found⟩
    have stays : text.dropWhile isWhitespace = text :=
      @dropWhile_run isWhitespace [] text (by simp) stops
    rw [if_neg (Lexeme.kind_read_ne_whitespace stops), stays]

section

variable {text other : Text} (same : lexemes text = lexemes other)

include same

theorem read_eq_of_lexemes : (Lexeme.read text).lexeme = (Lexeme.read other).lexeme := by
  obtain ⟨_, first⟩ := lexemes_eq_cons text
  obtain ⟨_, first'⟩ := lexemes_eq_cons other
  rw [first, first'] at same
  exact (List.cons.inj same).1

theorem front_eq_of_lexemes : Front.ofText text = Front.ofText other := by
  rw [Front.ofText_eq, Front.ofText_eq, read_eq_of_lexemes same]

theorem lexemes_dropWhile_congr :
    lexemes (text.dropWhile isWhitespace) = lexemes (other.dropWhile isWhitespace) := by
  rw [lexemes_dropWhile, lexemes_dropWhile, read_eq_of_lexemes same, same]

end

namespace Lexeme

/-- The lexemes that are read back from their CSS text as long as what comes behind does not run
into them. Besides those that can stand alone these are broken strings and the functions that are
named like urls. -/
inductive Legible : Lexeme → Prop where
  | writable {lexeme : Lexeme} (writable : Writable lexeme) : Legible lexeme
  | badString {value : Text} (noNul : '\x00' ∉ value) :
      Legible { kind := .badString, value := value }
  | urlFunction {value : Text} (word : IsWord value) (isUrl : isUrlName value) :
      Legible { kind := .function, value := value }

theorem css_badString (value : Text) :
    css { kind := .badString, value := value } = ['"'] ++ (Quoted.contentPieces value).flatten := by
  simp [css, pieces]

theorem Legible.read_css_append {lexeme : Lexeme} (h : Legible lexeme) {rest : Text}
    (stays : lexeme.StaysBefore rest) :
    read (lexeme.css ++ rest) = { lexeme := lexeme, rest := rest } := by
  cases h with
  | writable writable => exact writable.read_css_append stays
  | @badString value noNul =>
      have feed : rest.head? = some '\n' := stays.ends
      obtain ⟨behind, rfl⟩ := List.head?_eq_some_iff.mp feed
      rw [css_badString, List.append_assoc, List.singleton_append, read_of_quote (.inl rfl),
        readString, Quoted.read_contentPieces_lineFeed, Text.replaceNul_eq_self noNul]
      rfl
  | @urlFunction value word isUrl =>
      have quote := stays.ends ((isUrlName_iff value).mp isUrl)
      rw [read_css_function word, if_pos isUrl, readUrl_function value quote]

theorem Legible.isNormal_css {lexeme : Lexeme} (h : Legible lexeme) : lexeme.css.IsNormal := by
  cases h with
  | writable writable => exact writable.isNormal_css
  | @badString value noNul =>
      rw [css_badString]
      simp
  | @urlFunction value word isUrl =>
      rw [css_function]
      simp

theorem readIdentLike_function {text : Text} (kind : (readIdentLike text).lexeme.kind = .function) :
    (readIdentLike text).lexeme = { kind := .function, value := (Name.read text).1 } := by
  by_cases call : (Name.read text).2.head? = some '('
  · obtain ⟨rest, hrest⟩ := List.head?_eq_some_iff.mp call
    rw [readIdentLike_call hrest] at kind ⊢
    by_cases isUrl : isUrlName (Name.read text).1
    · rw [if_pos isUrl] at kind ⊢
      by_cases quote : (rest.dropWhile isWhitespace).head? = some '"' ∨
          (rest.dropWhile isWhitespace).head? = some '\''
      · rw [readUrl_function _ quote]
      · rw [readUrl_url _ quote] at kind
        cases good : (Url.read (rest.dropWhile isWhitespace)).good <;> simp [good] at kind
    · rw [if_neg isUrl]
  · rw [readIdentLike_ident call] at kind
    cases kind

/-- What begins with a name and is no closing mark is an identifier, a function or a url. -/
theorem read_of_front_name {text : Text} (front : Front.ofText text = .name)
    (notMark : (read text).lexeme.kind ≠ .cdc) : read text = readIdentLike text := by
  refine read_of_startsIdentifier (Front.startsIdentifier_iff.mpr front) fun mark => notMark ?_
  obtain ⟨behind, rfl⟩ := List.isPrefixOf_iff_prefix.mp mark
  rw [show read (cdcMark ++ behind) = _ from read_of_cdc behind]

/-- What is read from normal text is legible, unless it is the end, a number or a bad url. -/
theorem legible_read {text : Text} (normal : text.IsNormal)
    (notEnd : (read text).lexeme.kind ≠ .endOfInput)
    (readable : (read text).lexeme.kind ∉ [Kind.number, .percentage, .dimension, .badUrl]) :
    (read text).lexeme.Legible := by
  have noNul : '\x00' ∉ text := normal.nul_notMem
  by_cases broken : (read text).lexeme.kind = .badString
  · have front : Front.ofText text = .quote := by
      rw [Front.ofText_eq, Lexeme.front, broken]
    obtain ⟨c, rest, rfl, quote⟩ := exists_quote_cons (Front.quote_iff.mpr front)
    rw [read_of_quote quote] at broken ⊢
    have lexeme : (readString c rest).lexeme =
        { kind := .badString, value := (Quoted.read c rest).content } := by
      rw [← broken]
      rfl
    rw [lexeme]
    exact .badString (Quoted.nul_notMem_read c (mt (List.mem_cons_of_mem c) noNul))
  by_cases url : (read text).lexeme.kind = .function ∧ isUrlName (read text).lexeme.value
  · obtain ⟨kind, isUrl⟩ := url
    have front : Front.ofText text = .name := by
      rw [Front.ofText_eq, Lexeme.front, kind]
    have name := Lookahead.continuesName_of_startsIdentifier (Front.startsIdentifier_iff.mpr front)
    have hread := read_of_front_name front (by rw [kind]; decide)
    rw [hread] at kind isUrl ⊢
    rw [readIdentLike_function kind] at isUrl ⊢
    exact .urlFunction (isWord_read noNul name) isUrl
  · refine .writable (writable_read normal ?_ fun kind isUrl => url ⟨kind, isUrl⟩)
    simp only [irregularKinds, List.mem_cons, not_or] at readable ⊢
    obtain ⟨number, percentage, dimension, badUrl, notFunction⟩ := readable
    exact ⟨notEnd, broken, badUrl, number, percentage, dimension, notFunction⟩

/-- Two hyphens begin a closing mark, or an identifier or function with their name. -/
theorem read_hyphens (rest : Text) :
    let lexeme := (read ('-' :: '-' :: rest)).lexeme
    lexeme.kind = .cdc ∨
      (lexeme.kind = .ident ∨ lexeme.kind = .function) ∧ ['-', '-'] <+: lexeme.value := by
  intro lexeme
  by_cases mark : lexeme.kind = .cdc
  · exact .inl mark
  have front : Front.ofText ('-' :: '-' :: rest) = .name :=
    Front.ofText_name (by simp [Lookahead.ofText, Lookahead.startsIdentifier])
  have name : (Name.read ('-' :: '-' :: rest)).1 = '-' :: '-' :: (Name.read rest).1 := by
    rw [Name.read_of_name (by decide), Name.read_of_name (by decide)]
  have notUrl : ¬isUrlName (Name.read ('-' :: '-' :: rest)).1 := by
    rw [isUrlName_iff, name]
    simp [Text.lower]
  have hread : lexeme = (readIdentLike ('-' :: '-' :: rest)).lexeme :=
    congrArg Scanned.lexeme (read_of_front_name front mark)
  refine .inr ?_
  rw [hread]
  by_cases call : (Name.read ('-' :: '-' :: rest)).2.head? = some '('
  · obtain ⟨behind, hbehind⟩ := List.head?_eq_some_iff.mp call
    rw [readIdentLike_call hbehind, if_neg notUrl, name]
    exact ⟨.inr rfl, ⟨_, rfl⟩⟩
  · rw [readIdentLike_ident call, name]
    exact ⟨.inl rfl, ⟨_, rfl⟩⟩

/-- What is read as a closing mark is written as one. -/
theorem cdcMark_of_kind {text : Text} (kind : (read text).lexeme.kind = .cdc) :
    cdcMark <+: text := by
  have front : Front.ofText text = .name := by
    rw [Front.ofText_eq, Lexeme.front, kind]
  rw [← List.isPrefixOf_iff_prefix]
  refine Decidable.byContradiction fun notMark => ?_
  rw [read_of_startsIdentifier (Front.startsIdentifier_iff.mpr front) notMark] at kind
  exact absurd (kind ▸ kind_readIdentLike text) (by decide)

/-- Code points that are delimiters, whatever comes behind them. -/
theorem read_delimited {c : Char} (h : c = '>' ∨ c = '!') (rest : Text) :
    read (c :: rest) = delimited c rest := by
  have marked : read (c :: rest) = readMarked c rest := by
    rcases h with rfl | rfl <;>
      exact read_of_marked ⟨by decide, by decide, by decide⟩
        (by simp [Lookahead.ofText, Lookahead.startsNumber])
        (by simp [cdcMark])
        (by simp [Lookahead.ofText, Lookahead.startsIdentifier, isNameStart])
  rw [marked, readMarked_of_not_isMark]
  rcases h with rfl | rfl <;> simp [IsMark]

theorem front_ne_number {lexeme : Lexeme}
    (h : lexeme.kind ∉ [Kind.number, .percentage, .dimension]) : lexeme.front ≠ .number := by
  have other : (lexeme.value.head?.map Front.plain).getD .endOfInput ≠ .number := by
    cases lexeme.value.head? <;> simp
  unfold front
  split <;> simp_all

end Lexeme

theorem lexemes_delimited {c : Char} (h : c = '>' ∨ c = '!') (rest : Text) :
    lexemes (c :: rest) = { kind := .delim, value := [c] } :: lexemes rest := by
  rw [lexemes_of_ne_nil (List.cons_ne_nil c rest), Lexeme.read_delimited h]
  rfl

/-- Lexemes that hold no number and no bad url, and of which none next to each other make up a
comment mark of style sheets. -/
structure Separable (lexemes : List Lexeme) : Prop where
  kinds : ∀ lexeme ∈ lexemes, lexeme.kind ∉ [Kind.number, .percentage, .dimension, .badUrl]
  closing : ∀ first second, [first, second] <:+: lexemes →
    first.kind = .ident → first.value = ['-', '-'] →
      ¬(second.kind = .delim ∧ second.value = ['>'])
  opening : ∀ first second third, [first, second, third] <:+: lexemes →
    first.kind = .delim → first.value = ['<'] → second.kind = .delim → second.value = ['!'] →
      ¬((third.kind = .ident ∨ third.kind = .function) ∧ ['-', '-'] <+: third.value)

theorem Separable.tail {first : Lexeme} {lexemes : List Lexeme}
    (h : Separable (first :: lexemes)) : Separable lexemes :=
  ⟨fun lexeme mem => h.kinds lexeme (List.mem_cons_of_mem first mem),
    fun _ _ inside => h.closing _ _ (List.infix_cons inside),
    fun _ _ _ inside => h.opening _ _ _ (List.infix_cons inside)⟩

section

variable {lexeme : Lexeme} {rest : Text} (separable : Separable (lexeme :: lexemes rest))

include separable

theorem Separable.front_ne_number : Front.ofText rest ≠ .number := by
  obtain ⟨behind, first⟩ := lexemes_eq_cons rest
  rw [Front.ofText_eq]
  have regular := separable.kinds (Lexeme.read rest).lexeme (by simp [first])
  exact Lexeme.front_ne_number fun number => regular (List.mem_append_left [Kind.badUrl] number)

/-- No greater-than sign follows two hyphens. -/
theorem Separable.hyphens (kind : lexeme.kind = .ident) (value : lexeme.value = ['-', '-']) :
    rest.head? ≠ some '>' := by
  intro greater
  obtain ⟨behind, rfl⟩ := List.head?_eq_some_iff.mp greater
  rw [lexemes_delimited (.inl rfl)] at separable
  exact separable.closing _ _ ⟨[], _, rfl⟩ kind value ⟨rfl, rfl⟩

/-- A less-than sign that is no opening mark makes none of any text with the same lexemes. -/
theorem Separable.less (kind : lexeme.kind = .delim) (value : lexeme.value = ['<'])
    (alone : Lexeme.StandsAlone '<' rest) {other : Text} (same : lexemes rest = lexemes other) :
    Lookahead.ofText other ≠ ⟨some '!', some '-', some '-'⟩ := by
  intro mark
  obtain ⟨after, rfl⟩ := Lookahead.eq_of_ofText mark
  have front : Front.ofText rest = .plain '!' := front_eq_of_lexemes same
  obtain ⟨behind, rfl⟩ := List.head?_eq_some_iff.mp (Front.head_of_plain front)
  rw [lexemes_delimited (.inr rfl), lexemes_delimited (.inr rfl)] at same
  have third := read_eq_of_lexemes (List.cons.inj same).2
  rcases Lexeme.read_hyphens after with closing | ⟨nameLike, hyphens⟩
  · -- A closing mark is never written with escapes, so `rest` goes on with hyphens as well.
    rw [← third] at closing
    obtain ⟨later, rfl⟩ := Lexeme.cdcMark_of_kind closing
    exact alone.less rfl rfl
  · rw [← third] at nameLike hyphens
    obtain ⟨later, hlater⟩ := lexemes_eq_cons behind
    rw [lexemes_delimited (.inr rfl), hlater] at separable
    exact separable.opening _ _ _ ⟨[], _, rfl⟩ kind value rfl rfl ⟨nameLike, hyphens⟩

end

/-- What is read off the front of a text stays what it is in front of every text with the lexemes of
what is left. -/
theorem staysBefore_of_lexemes {text other : Text} (nonempty : text ≠ [])
    (separable : Separable (lexemes text))
    (same : lexemes (Lexeme.read text).rest = lexemes other) :
    (Lexeme.read text).lexeme.StaysBefore other := by
  rw [lexemes_of_ne_nil nonempty] at separable
  have stays := Lexeme.staysBefore_read separable.hyphens
  refine stays.of_front (front_eq_of_lexemes same) separable.front_ne_number
    (front_eq_of_lexemes (lexemes_dropWhile_congr same)) fun kind value => ?_
  exact separable.less kind value (stays.alone kind '<' value) same

@[simp] theorem serialize_cons (lexeme : Lexeme) (behind : List Lexeme) :
    serialize (lexeme :: behind) = lexeme.css ++ serialize behind := by
  rw [serialize, List.map_cons, List.flatten_cons, serialize]

/-- The lexemes of normal text are read back from their CSS text, and that is normal. -/
theorem lexemes_serialize {text : Text} (normal : text.IsNormal)
    (separable : Separable (lexemes text)) :
    (serialize (lexemes text)).IsNormal ∧ lexemes (serialize (lexemes text)) = lexemes text := by
  induction text using lexemes_induction with
  | endOfInput =>
      rw [lexemes_nil]
      exact ⟨nofun, lexemes_nil⟩
  | lexeme text nonempty ih =>
      have normalRest : (Lexeme.read text).rest.IsNormal := by
        obtain ⟨covered, split⟩ := Lexeme.rest_suffix text
        rw [split] at normal
        exact (Text.isNormal_append.mp normal).2
      have separableRest : Separable (lexemes (Lexeme.read text).rest) := by
        rw [lexemes_of_ne_nil nonempty] at separable
        exact separable.tail
      have notEnd := Lexeme.kind_read_ne_endOfInput nonempty
      have legible : (Lexeme.read text).lexeme.Legible := by
        refine Lexeme.legible_read normal notEnd (separable.kinds _ ?_)
        rw [lexemes_of_ne_nil nonempty]
        exact List.mem_cons_self
      obtain ⟨normalBehind, again⟩ := ih normalRest separableRest
      -- What is written behind has the lexemes of the rest, so the first lexeme ends before both.
      have stays := staysBefore_of_lexemes nonempty separable again.symm
      have hread := legible.read_css_append stays
      rw [lexemes_of_ne_nil nonempty, serialize_cons]
      refine ⟨Text.isNormal_append.mpr ⟨legible.isNormal_css, normalBehind⟩, ?_⟩
      rw [lexemes_of_ne_nil, hread, again]
      intro empty
      rw [empty] at hread
      exact notEnd (congrArg (fun scanned : Scanned => scanned.lexeme.kind) hread).symm

@[simp] theorem toLexeme_tokenize (input : Text) :
    (tokenize input).map Token.toLexeme = lexemes (Units.normalize (Units.ofText input)) := by
  rw [tokenize, lexemes, List.map_map]
  rfl

/-- The lexemes of a text are read back, all of them, from the CSS text that is written for them one
behind another. -/
theorem tokenize_serialize {input : Text}
    (separable : Separable ((tokenize input).map Token.toLexeme)) :
    (tokenize (serialize ((tokenize input).map Token.toLexeme))).map Token.toLexeme =
      (tokenize input).map Token.toLexeme := by
  simp only [toLexeme_tokenize] at separable ⊢
  obtain ⟨normal, again⟩ := lexemes_serialize (Units.isNormal_normalize _) separable
  rw [Units.normalize_ofText normal, again]

/-- A function named `url` in front of a string that a line feed breaks off. -/
theorem tokenize_serialize_url :
    let input : Text := ['u', 'r', 'l', '(', ' ', '\'', 'a', '\n']
    let lexemes := (tokenize input).map Token.toLexeme
    Separable lexemes ∧ (tokenize (serialize lexemes)).map Token.toLexeme = lexemes := by
  intro input lexemes
  have found : lexemes =
      [{ kind := .function, value := ['u', 'r', 'l'] }, { kind := .whitespace, value := [' '] },
        { kind := .badString, value := ['a'] }, { kind := .whitespace, value := ['\n'] },
        .endOfInput] := by
    decide +kernel
  have regular : ∀ lexeme ∈ lexemes, lexeme.kind ∉ [Kind.number, .percentage, .dimension, .badUrl,
      .ident, .delim] := by
    rw [found]
    decide
  have separable : Separable lexemes := by
    refine ⟨fun lexeme mem kind => ?_, fun first second inside kind => ?_,
      fun first second third inside kind => ?_⟩
    · exact regular lexeme mem (List.mem_append_left [Kind.ident, .delim] kind)
    · exact absurd (by simp [kind]) (regular first (inside.subset List.mem_cons_self))
    · exact absurd (by simp [kind]) (regular first (inside.subset List.mem_cons_self))
  exact ⟨separable, tokenize_serialize separable⟩

end CssSyntax
