import CssSyntax.Proofs.Casing
import CssSyntax.Proofs.Decoding
import CssSyntax.Proofs.Identifiers

/-!
The grammar of unquoted urls. A url is a row of units, to the end of the text or to a parenthesis
with nothing but blanks before it, and everything else is a bad url. Both go through the first
parenthesis that is not escaped.
-/

namespace CssSyntax

open CodePoint Text

namespace Url

/-- What an unquoted url is made of: escapes, and code points that are neither blanks nor quotes nor
parentheses nor controls. A backslash that begins no escape is none. -/
def isUnit : Glyph → Bool
  | .plain c =>
      !(isWhitespace c || c == '"' || c == '\'' || c == '(' || c == ')' || c == '\\' ||
        isNonPrintable c)
  | .escape _ => true
  | .continuation | .stray => false

/-- A row of glyphs is the inside of a url, and `behind` comes behind its parenthesis. -/
inductive Grammar : List Glyph → List Glyph → Prop where
  | ended {units : List Glyph} (all : ∀ unit ∈ units, isUnit unit) : Grammar units []
  | closed {units blanks behind : List Glyph} (all : ∀ unit ∈ units, isUnit unit)
      (blank : ∀ glyph ∈ blanks, glyph.isBlank) :
      Grammar (units ++ blanks ++ .plain ')' :: behind) behind

/-- What stands behind the first parenthesis that closes a row; an escaped one does not. -/
def behindClose (row : List Glyph) : List Glyph := (row.dropWhile (· ≠ .plain ')')).drop 1

@[simp] theorem behindClose_append {front row : List Glyph} (unclosed : .plain ')' ∉ front) :
    behindClose (front ++ row) = behindClose row := by
  have passes : ∀ glyph ∈ front, decide (glyph ≠ .plain ')') := by
    intro glyph mem
    refine decide_eq_true ?_
    rintro rfl
    exact unclosed mem
  rw [behindClose, List.dropWhile_append_of_pos passes, behindClose]

@[simp] theorem behindClose_close (row : List Glyph) : behindClose (.plain ')' :: row) = row := by
  rw [behindClose, List.dropWhile_cons_of_neg (by simp)]
  rfl

theorem Encloses.behindClose_eq {text rest : Text} {inside closing : List Glyph}
    (h : Encloses text inside closing rest) : behindClose (glyphs text) = glyphs rest := by
  rw [h.split, List.append_assoc, behindClose_append h.unclosed]
  rcases h.closes with rfl | ⟨rfl, rfl⟩
  · exact behindClose_close _
  · simp [behindClose]

/-- Good or bad, a url is read through the first parenthesis that is not escaped. -/
@[simp] theorem behindClose_glyphs (text : Text) :
    behindClose (glyphs text) = glyphs (read text).rest := by
  cases good : (read text).good with
  | true =>
      obtain ⟨_, _, _, encloses, -⟩ := encloses_read_of_good good
      exact encloses.behindClose_eq
  | false =>
      obtain ⟨_, _, encloses, -⟩ := encloses_read_of_bad good
      exact encloses.behindClose_eq

theorem close_notMem_units {units : List Glyph} (all : ∀ unit ∈ units, isUnit unit) :
    .plain ')' ∉ units :=
  fun mem => absurd (all _ mem) (by decide)

theorem close_notMem_blanks {blanks : List Glyph} (blank : ∀ glyph ∈ blanks, glyph.isBlank) :
    .plain ')' ∉ blanks :=
  fun mem => absurd (blank _ mem) (by decide)

theorem Grammar.behind_eq {row behind : List Glyph} (h : Grammar row behind) :
    behind = behindClose row := by
  cases h with
  | ended all =>
      have stays : behindClose (row ++ []) = [] := behindClose_append (close_notMem_units all)
      rw [List.append_nil] at stays
      exact stays.symm
  | closed all blank =>
      have unclosed := List.not_mem_append (close_notMem_units all) (close_notMem_blanks blank)
      rw [behindClose_append unclosed, behindClose_close]

variable {glyph : Glyph} {row behind : List Glyph}

/-- A row that is the inside of a url begins with a unit, or with the parenthesis and the blanks
before it. -/
theorem grammar_cons_iff :
    Grammar (glyph :: row) behind ↔
      (isUnit glyph ∧ Grammar row behind) ∨
        (glyph :: row).dropWhile Glyph.isBlank = .plain ')' :: behind := by
  constructor
  · intro h
    generalize whole : glyph :: row = glyphs at h
    cases h with
    | ended all =>
        subst whole
        obtain ⟨first, later⟩ := List.forall_mem_cons.mp all
        exact .inl ⟨first, .ended later⟩
    | @closed units blanks behind all blank =>
        cases units with
        | nil =>
            rw [List.nil_append, List.dropWhile_append_of_pos blank]
            exact .inr (List.dropWhile_cons_of_neg (by decide))
        | cons unit units =>
            obtain ⟨rfl, rfl⟩ := List.cons.inj whole
            obtain ⟨first, later⟩ := List.forall_mem_cons.mp all
            exact .inl ⟨first, .closed later blank⟩
  · rintro (⟨unit, grammar⟩ | closed)
    · cases grammar with
      | ended all => exact .ended (List.forall_mem_cons.mpr ⟨unit, all⟩)
      | @closed units blanks behind all blank =>
          exact @Grammar.closed (glyph :: units) _ _ (List.forall_mem_cons.mpr ⟨unit, all⟩) blank
    · have blank : ∀ other ∈ (glyph :: row).takeWhile Glyph.isBlank, other.isBlank :=
        fun other mem => List.mem_takeWhile_imp mem
      have split := List.takeWhile_append_dropWhile (p := Glyph.isBlank) (l := glyph :: row)
      rw [closed] at split
      rw [← split]
      exact .closed (List.forall_mem_nil _) blank

theorem not_isBlank_of_isUnit (unit : isUnit glyph) : ¬glyph.isBlank := by
  intro blank
  cases glyph with
  | plain c =>
      change isWhitespace c = true at blank
      simp [isUnit, blank] at unit
  | _ => cases blank

/-- A unit in front changes nothing about a url. -/
theorem grammar_of_unit (unit : isUnit glyph) :
    Grammar (glyph :: row) behind ↔ Grammar row behind := by
  rw [grammar_cons_iff]
  constructor
  · rintro (⟨-, grammar⟩ | closed)
    · exact grammar
    · rw [List.dropWhile_cons_of_neg (not_isBlank_of_isUnit unit)] at closed
      obtain ⟨rfl, -⟩ := List.cons.inj closed
      exact absurd unit (by decide)
  · exact fun grammar => .inl ⟨unit, grammar⟩

/-- No url begins with a glyph that is neither a unit nor a blank nor the parenthesis. -/
theorem not_grammar (notUnit : ¬isUnit glyph) (notBlank : ¬glyph.isBlank)
    (notClose : glyph ≠ .plain ')') : ¬Grammar (glyph :: row) behind := by
  rw [grammar_cons_iff, List.dropWhile_cons_of_neg notBlank]
  rintro (⟨unit, -⟩ | closed)
  · exact notUnit unit
  · exact notClose (List.cons.inj closed).1

@[simp] theorem dropWhile_isBlank_glyphs (text : Text) :
    (glyphs text).dropWhile Glyph.isBlank = glyphs (text.dropWhile isWhitespace) := by
  have stops := Glyph.isBlank_head (stopsAt_dropWhile isWhitespace text)
  rw [glyphs_blanks, List.dropWhile_append_of_pos Glyph.isBlank_of_mem_blanks]
  cases front : glyphs (text.dropWhile isWhitespace) with
  | nil => rfl
  | cons glyph row =>
      rw [front] at stops
      exact List.dropWhile_cons_of_neg (by simp [stops glyph rfl])

theorem ne_backslash_of_isWhitespace {c : Char} (blank : isWhitespace c) : c ≠ '\\' := by
  rintro rfl
  exact absurd blank (by decide)

/-- A url is good if it follows the grammar. -/
theorem good_iff (text : Text) :
    (read text).good ↔ ∃ behind, Grammar (glyphs text) behind := by
  fun_induction read text with
  | case1 =>
      rw [glyphs_nil]
      exact iff_of_true rfl ⟨[], .ended (List.forall_mem_nil _)⟩
  | case2 rest =>
      rw [glyphs_of_plain (by decide)]
      exact iff_of_true rfl ⟨glyphs rest, grammar_cons_iff.mpr (.inr rfl)⟩
  | case3 c rest notClosed blank after closed =>
      have spaces : (glyphs (c :: rest)).dropWhile Glyph.isBlank = .plain ')' :: glyphs after := by
        rw [dropWhile_isBlank_glyphs, List.dropWhile_cons_of_pos blank, closed]
        exact glyphs_of_plain (by decide) after
      rw [glyphs_of_plain (ne_backslash_of_isWhitespace blank)] at spaces ⊢
      exact iff_of_true rfl ⟨glyphs after, grammar_cons_iff.mpr (.inr spaces)⟩
  | case4 c rest notClosed blank more =>
      have notEscape := ne_backslash_of_isWhitespace blank
      refine iff_of_false (by simp [spoiled]) ?_
      rintro ⟨behind, grammar⟩
      rw [glyphs_of_plain notEscape] at grammar
      rcases grammar_cons_iff.mp grammar with ⟨unit, -⟩ | closed
      · exact not_isBlank_of_isUnit unit blank
      · rw [← glyphs_of_plain notEscape, dropWhile_isBlank_glyphs,
          List.dropWhile_cons_of_pos blank] at closed
        have front := flatMap_text_glyphs (rest.dropWhile isWhitespace)
        rw [closed] at front
        exact more _ front.symm
  | case5 c rest notClosed notBlank spoiling =>
      have notEscape : c ≠ '\\' := by
        rintro rfl
        exact absurd spoiling (by decide)
      rw [glyphs_of_plain notEscape]
      refine iff_of_false (by simp [spoiled]) ?_
      rintro ⟨behind, grammar⟩
      have notUnit : ¬isUnit (.plain c) := by
        simp only [spoils, Bool.or_eq_true] at spoiling
        rcases spoiling with ((double | single) | paren) | control
        all_goals simp_all [isUnit]
      have other : Glyph.plain c ≠ .plain ')' := by simpa using notClosed
      exact not_grammar notUnit notBlank other grammar
  | case6 rest e after hread inner _ _ _ ih =>
      have unit : isUnit (.escape (Escape.spelling rest)) := rfl
      rw [glyphs_of_escape hread]
      simp only [grammar_of_unit unit]
      exact ih
  | case7 rest hread =>
      rw [glyphs_of_missing_escape hread]
      refine iff_of_false (by simp [spoiled]) ?_
      rintro ⟨behind, grammar⟩
      refine not_grammar ?_ ?_ ?_ grammar
      all_goals split <;> decide
  | case8 c rest notClosed notBlank clean notEscape inner ih =>
      have unit : isUnit (.plain c) := by
        simp only [spoils, Bool.or_eq_true, not_or] at clean
        simp_all [isUnit]
      rw [glyphs_of_plain notEscape]
      simp only [grammar_of_unit unit]
      exact ih

end Url

namespace Lexeme

variable {text name rest : Text}

/-- The name of urls begins with its first letter or with an escape. -/
theorem start_of_url {c : Char} {tail : Text} (read : Name.read (c :: tail) = (name, rest))
    (url : name.lower = ['u', 'r', 'l']) :
    isNameStart c ∨ c = '\\' ∧ (Escape.read tail).isSome := by
  by_cases continues : (Lookahead.ofText (c :: tail)).continuesName
  · rcases (Name.continuesName_cons_iff c tail).mp continues with named | escape
    · rw [Name.read_of_name named] at read
      obtain ⟨rfl, -⟩ := Prod.mk.inj read
      have letter : c.toLower = 'u' := (List.cons.inj url).1
      cases upper : c.isUpper with
      | true =>
          have alpha : c.isAlpha := by
            change (c.isUpper || c.isLower) = true
            rw [upper, Bool.true_or]
          exact .inl (by simp [isNameStart, alpha])
      | false =>
          rw [Text.toLower_eq_self upper] at letter
          rw [letter]
          exact .inl (by decide)
    · exact .inr escape
  · rw [Name.read_of_not_continuesName continues] at read
    obtain ⟨rfl, -⟩ := Prod.mk.inj read
    cases url

/-- A name that is the one of urls is read as such where a parenthesis follows it. -/
theorem read_of_url (call : Name.read text = (name, '(' :: rest))
    (url : name.lower = ['u', 'r', 'l']) : read text = readUrl name rest := by
  cases text with
  | nil =>
      rw [Name.read] at call
      cases call
  | cons c tail =>
      have start := start_of_url call url
      have notHyphen : c ≠ '-' := by
        rintro rfl
        rcases start with start | ⟨backslash, -⟩
        · exact absurd start (by decide)
        · exact absurd backslash (by decide)
      have identifier : (Lookahead.ofText (c :: tail)).startsIdentifier := by
        refine (Name.startsIdentifier_iff _).mpr ⟨(Name.begins_cons_iff c tail).mpr ?_, ?_⟩
        · exact start.imp_right .inr
        · exact fun hyphen => absurd (Option.some.inj hyphen) notHyphen
      have notMark : ¬cdcMark.isPrefixOf (c :: tail) := by
        intro mark
        exact notHyphen (List.cons_prefix_cons.mp (List.isPrefixOf_iff_prefix.mp mark)).1.symm
      have behind : (Name.read (c :: tail)).2 = '(' :: rest := congrArg Prod.snd call
      rw [read_of_startsIdentifier identifier notMark, readIdentLike_call behind, call,
        if_pos ((isUrlName_iff name).mpr url)]

/-- Without a quote, a url is good or bad by the grammar, and goes through its parenthesis. -/
theorem readUrl_grammar (name : Text)
    (noQuote : ¬((rest.dropWhile isWhitespace).head? = some '"' ∨
      (rest.dropWhile isWhitespace).head? = some '\'')) :
    let scanned := readUrl name rest
    let inside := glyphs (rest.dropWhile isWhitespace)
    (scanned.lexeme.kind = .url ↔ ∃ behind, Url.Grammar inside behind) ∧
      (∀ behind, Url.Grammar inside behind → glyphs scanned.rest = behind) ∧
      ((¬∃ behind, Url.Grammar inside behind) →
        scanned.lexeme.kind = .badUrl ∧ glyphs scanned.rest = Url.behindClose inside) := by
  intro scanned inside
  have whole : scanned = _ := readUrl_url name noQuote
  have left : glyphs scanned.rest = Url.behindClose inside := by
    rw [whole]
    exact (Url.behindClose_glyphs _).symm
  rw [left, ← Url.good_iff, whole]
  refine ⟨?_, fun behind grammar => grammar.behind_eq.symm, fun bad => ⟨?_, rfl⟩⟩
  · cases (Url.read (rest.dropWhile isWhitespace)).good <;> simp
  · exact if_neg bad

end Lexeme

namespace TokenStream

variable {stream : TokenStream} {name rest : Text}

/-- Behind the name of urls and its parenthesis, a quote makes a function of them, which leaves the
blanks before the quote. Otherwise it is a url exactly if what stands behind the blanks follows the
grammar, and ends with the grammar; and a bad url if not, which ends behind the first parenthesis
that is not escaped. -/
theorem next_follows_url_grammar (noFailures : stream.reader.input.source.failures = [])
    (call : Name.read stream.reader.begin.text = (name, '(' :: rest))
    (url : name.lower = ['u', 'r', 'l']) :
    let inside := rest.dropWhile isWhitespace
    let quoted := inside.head? = some '"' ∨ inside.head? = some '\''
    let left := stream.next.stream.reader.begin.text
    ∃ token, stream.next.result = .ok token ∧
      token.representation ++ left = stream.reader.begin.text ∧
      (quoted → token.kind = .function ∧ left = rest) ∧
      (¬quoted →
        (token.kind = .url ↔ ∃ behind, Url.Grammar (glyphs inside) behind) ∧
        (∀ behind, Url.Grammar (glyphs inside) behind → glyphs left = behind) ∧
        ((¬∃ behind, Url.Grammar (glyphs inside) behind) →
          token.kind = .badUrl ∧ glyphs left = Url.behindClose (glyphs inside))) := by
  intro inside quoted left
  obtain ⟨reader, hnext, hrest, -, -⟩ := next_of_no_failures noFailures
  have split := Scanned.representation_append stream.reader.begin.text stream.reader.begin.position
  have hleft : left = (Lexeme.read stream.reader.begin.text).rest := by
    rw [← hrest]
    exact congrArg (fun step => step.stream.reader.begin.text) hnext
  rw [← hleft, Lexeme.read_of_url call url] at split
  rw [Lexeme.read_of_url call url] at hleft hnext
  refine ⟨_, congrArg Step.result hnext, split, fun quote => ?_, fun noQuote => ?_⟩
  · rw [Lexeme.readUrl_function name quote] at hleft ⊢
    exact ⟨rfl, hleft⟩
  · rw [hleft]
    exact Lexeme.readUrl_grammar name noQuote

/-- Behind `Ur\6c(` stands a url, with a blank before it that is no part of it. -/
theorem next_follows_url_grammar_escaped :
    let stream := ofSource (.ofText ['U', 'r', '\\', '6', 'c', '(', ' ', 'a', ')', 'b']) .discarding
    ∃ token, stream.next.result = .ok token ∧ token.kind = .url ∧
      glyphs stream.next.stream.reader.begin.text = [.plain 'b'] := by
  intro stream
  have noFailures : stream.reader.input.source.failures = [] := Source.failures_units _
  have text : stream.reader.begin.text =
      ['U', 'r', '\\', '6', 'c', '(', ' ', 'a', ')', 'b'] :=
    Normalizer.text_ofSource_ofText (by simp)
  have call : Name.read stream.reader.begin.text =
      (['U', 'r', 'l'], ['(', ' ', 'a', ')', 'b']) := by
    have letter : Escape.read ['6', 'c', '(', ' ', 'a', ')', 'b'] =
        some ('l', ['(', ' ', 'a', ')', 'b']) := by decide
    rw [text, Name.read_of_name (by decide), Name.read_of_name (by decide),
      Name.read_of_escape letter, Name.read_of_not_continuesName (by decide)]
  have grammar : Url.Grammar (glyphs ['a', ')', 'b']) [.plain 'b'] := by
    have row : glyphs ['a', ')', 'b'] = [.plain 'a', .plain ')', .plain 'b'] := by
      simp
    rw [row]
    exact @Url.Grammar.closed [.plain 'a'] [] _ (by decide) (by decide)
  obtain ⟨token, given, -, -, follows⟩ := next_follows_url_grammar noFailures call (by decide)
  obtain ⟨isUrl, left, -⟩ := follows (by decide)
  exact ⟨token, given, isUrl.mpr ⟨_, grammar⟩, left _ grammar⟩

end TokenStream

end CssSyntax
