import Mathlib.Data.List.TakeWhile
import CssSyntax.Proofs.Glyphs
import CssSyntax.Proofs.Streams
import CssSyntax.Proofs.Values

/-!
Where comments and strings end. A comment goes through the first closing mark in the text, and a
string through its first quote or up to its first line feed, whichever comes first, where those
within escapes and behind a backslash do not count. Without them both go to the end of the text.
-/

namespace CssSyntax

open CodePoint Text

/-- A mark stands in a text between `before` and `behind`, and nowhere further to the left. -/
structure Text.IsFirst (mark before behind text : Text) : Prop where
  split : text = before ++ mark ++ behind
  first : ∀ earlier later, text = earlier ++ mark ++ later → before.length ≤ earlier.length

theorem Text.IsFirst.notIn {mark before behind text : Text} (h : IsFirst mark before behind text)
    (nonempty : mark ≠ []) : ¬mark <:+: before := by
  rintro ⟨earlier, later, rfl⟩
  have within := h.first earlier (later ++ mark ++ behind) (by simp [h.split])
  have := List.length_pos_iff.mpr nonempty
  simp only [List.length_append] at within
  omega

namespace Comment

/-- A comment is read up to the first closing mark. -/
theorem read_of_isFirst {text content behind : Text}
    (h : IsFirst ['*', '/'] content behind text) : read text = ⟨content, true, behind⟩ := by
  rw [h.split, List.append_assoc]
  exact read_append (h.notIn (by decide)) behind

/-- Without a closing mark a comment is read to the end of the text. -/
theorem read_of_notIn {text : Text} (h : ¬['*', '/'] <:+: text) :
    read text = ⟨text, false, []⟩ := by
  induction text with
  | nil => rfl
  | cons c rest ih =>
      have inner : ¬['*', '/'] <:+: rest := fun found => h (List.infix_cons found)
      rw [read_cons, ih inner]
      rintro ⟨rfl, slash⟩
      obtain ⟨after, rfl⟩ := List.head?_eq_some_iff.mp slash
      exact h ⟨[], after, rfl⟩

end Comment

namespace Quoted

/-- A glyph at which a string does not end: neither its quote nor a line feed. -/
def isInside (quote : Char) (glyph : Glyph) : Bool :=
  glyph ≠ .plain quote ∧ glyph ≠ .plain '\n'

/-- What is read of a string by the glyph that it ends at, which is the first of `row`. -/
inductive EndsAt (quote : Char) : (row : List Glyph) → Reading → Prop where
  | quote {content rest : Text} :
      EndsAt quote (.plain quote :: glyphs rest) ⟨content, .quote, rest⟩
  | lineFeed {content rest : Text} :
      EndsAt quote (.plain '\n' :: glyphs rest) ⟨content, .lineFeed, '\n' :: rest⟩
  | endOfInput {content : Text} : EndsAt quote [] ⟨content, .endOfInput, []⟩

variable {quote : Char}

theorem EndsAt.congr {row : List Glyph} {reading : Reading} (h : EndsAt quote row reading)
    (content : Text) : EndsAt quote row { reading with content := content } := by
  cases h
  · exact .quote
  · exact .lineFeed
  · exact .endOfInput

/-- A string ends at the first glyph that is not inside it. -/
theorem endsAt_read (notBackslash : '\\' ≠ quote) (text : Text) :
    EndsAt quote ((glyphs text).dropWhile (isInside quote)) (read quote text) := by
  fun_induction read quote text with
  | case1 =>
      rw [glyphs_nil]
      exact .endOfInput
  | case2 rest =>
      rw [glyphs_of_plain notBackslash.symm, List.dropWhile_cons_of_neg (by simp [isInside])]
      exact .quote
  | case3 rest notQuote =>
      rw [glyphs_of_plain (by decide), List.dropWhile_cons_of_neg (by simp [isInside])]
      exact .lineFeed
  | case4 rest e after hread inner notQuote notFeed ih =>
      rw [glyphs_of_escape hread, List.dropWhile_cons_of_pos (by simp [isInside])]
      exact ih.congr _
  | case5 rest hread notQuote notFeed ih =>
      rw [glyphs_of_missing_escape hread, List.dropWhile_cons_of_pos]
      · exact ih
      · split <;> simp [isInside]
  | case6 c rest notQuote notFeed notEscape inner ih =>
      rw [glyphs_of_plain notEscape,
        List.dropWhile_cons_of_pos (by simp [isInside, notQuote, notFeed])]
      exact ih.congr _

end Quoted

/-- What a comment is, by the text behind its opening mark. -/
structure Token.OfComment (token : Token) (inside : Text) : Prop where
  kind : token.kind = .comment
  closed : ∀ content behind, IsFirst ['*', '/'] content behind inside →
    token.value = content ∧ token.representation = ['/', '*'] ++ content ++ ['*', '/']
  unclosed : ¬['*', '/'] <:+: inside →
    token.value = inside ∧ token.representation = ['/', '*'] ++ inside

/-- What a string is, by the glyphs behind its opening quote. -/
structure Token.OfString (token : Token) (quote : Char) (inside : Text) : Prop where
  closed : ∀ front behind, (∀ glyph ∈ front, Quoted.isInside quote glyph) →
    glyphs inside = front ++ .plain quote :: behind →
      token.kind = .string ∧ token.representation = quote :: front.flatMap Glyph.text ++ [quote]
  broken : ∀ front behind, (∀ glyph ∈ front, Quoted.isInside quote glyph) →
    glyphs inside = front ++ .plain '\n' :: behind →
      token.kind = .badString ∧ token.representation = quote :: front.flatMap Glyph.text
  unclosed : (∀ glyph ∈ glyphs inside, Quoted.isInside quote glyph) →
    token.kind = .string ∧ token.representation = quote :: inside

namespace Lexeme

theorem ofComment_readComment (inside : Text) (place : Position) :
    ((readComment inside).token ('/' :: '*' :: inside) place).OfComment inside := by
  refine ⟨rfl, fun content behind first => ?_, fun unclosed => ?_⟩
  · have whole := Comment.read_of_isFirst first
    have split : '/' :: '*' :: inside =
        ['/', '*'] ++ content ++ ['*', '/'] ++ (readComment inside).rest := by
      rw [readComment, whole, first.split]
      simp
    exact ⟨congrArg Comment.Reading.content whole, Scanned.representation_of_split split place⟩
  · have whole := Comment.read_of_notIn unclosed
    have split : '/' :: '*' :: inside = ['/', '*'] ++ inside ++ (readComment inside).rest := by
      rw [readComment, whole]
      simp
    exact ⟨congrArg Comment.Reading.content whole, Scanned.representation_of_split split place⟩

theorem ofString_readString {quote : Char} (isQuote : quote = '"' ∨ quote = '\'')
    (inside : Text) (place : Position) :
    ((readString quote inside).token (quote :: inside) place).OfString quote inside := by
  have notBackslash : '\\' ≠ quote := by rcases isQuote with rfl | rfl <;> decide
  have notFeed : quote ≠ '\n' := by rcases isQuote with rfl | rfl <;> decide
  have ends := Quoted.endsAt_read notBackslash inside
  have covered {front : List Glyph}
      (split : glyphs inside = front ++ glyphs (readString quote inside).rest) :
      ((readString quote inside).token (quote :: inside) place).representation =
        quote :: front.flatMap Glyph.text :=
    Scanned.representation_of_split (congrArg (quote :: ·) (eq_append_of_glyphs split)) place
  simp only [Scanned.token, readString] at covered ⊢
  generalize Quoted.read quote inside = reading at ends covered ⊢
  refine ⟨fun front behind all row => ?_, fun front behind all row => ?_, fun all => ?_⟩
  · rw [row, List.dropWhile_append_of_pos all,
      List.dropWhile_cons_of_neg (by simp [Quoted.isInside])] at ends
    cases ends with
    | lineFeed => exact absurd rfl notFeed
    | @quote content rest =>
        have through : glyphs inside = (front ++ [.plain quote]) ++ glyphs rest := by simp [row]
        exact ⟨rfl, (covered through).trans (by simp [Glyph.text])⟩
  · rw [row, List.dropWhile_append_of_pos all,
      List.dropWhile_cons_of_neg (by simp [Quoted.isInside])] at ends
    cases ends with
    | quote => exact absurd rfl notFeed
    | @lineFeed content rest =>
        have upTo : glyphs inside = front ++ glyphs ('\n' :: rest) := by
          rw [row, glyphs_of_plain (by decide)]
        exact ⟨rfl, covered upTo⟩
  · rw [List.dropWhile_eq_nil_iff.mpr all] at ends
    cases ends with
    | endOfInput =>
        have whole : glyphs inside = glyphs inside ++ glyphs [] := by
          rw [glyphs_nil, List.append_nil]
        exact ⟨rfl, (covered whole).trans (by rw [flatMap_text_glyphs])⟩

end Lexeme

namespace TokenStream

variable {stream : TokenStream}

/-- Where a comment opens, the next token is that comment, through the first closing mark there is.
Where a quote opens, it is a string, through the next such quote or broken off before the next line
feed, whichever comes first; those in escapes and behind a backslash do not count. Without them the
token goes to the end of the text. -/
theorem next_ends_at_first_terminator (noFailures : stream.reader.input.source.failures = []) :
    let text := stream.reader.begin.text
    ∃ token, stream.next.result = .ok token ∧
      token.representation ++ stream.next.stream.reader.begin.text = text ∧
      (∀ inside, text = '/' :: '*' :: inside → token.OfComment inside) ∧
      ∀ quote inside, quote = '"' ∨ quote = '\'' → text = quote :: inside →
        token.OfString quote inside := by
  intro text
  obtain ⟨reader, hnext, hrest, -, -⟩ := next_of_no_failures noFailures
  have split := Scanned.representation_append text stream.reader.begin.position
  have left : stream.next.stream.reader.begin.text = (Lexeme.read text).rest := by
    rw [← hrest]
    exact congrArg (fun step => step.stream.reader.begin.text) hnext
  rw [← left] at split
  refine ⟨_, congrArg Step.result hnext, split, fun inside comment => ?_,
    fun quote inside isQuote string => ?_⟩
  · change ((Lexeme.read text).token text _).OfComment inside
    rw [comment, Lexeme.Reading.comment.read_eq]
    exact Lexeme.ofComment_readComment inside _
  · change ((Lexeme.read text).token text _).OfString quote inside
    rw [string, Lexeme.read_of_quote isQuote]
    exact Lexeme.ofString_readString isQuote inside _

/-- In `"\61` before a line feed and `"b`, the line feed ends the escape and not the string. -/
theorem next_ends_at_first_terminator_escaped :
    let stream := ofSource (.ofText ['"', '\\', '6', '1', '\n', '"', 'b']) .discarding
    ∃ token, stream.next.result = .ok token ∧ token.kind = .string ∧
      token.representation = ['"', '\\', '6', '1', '\n', '"'] := by
  intro stream
  have noFailures : stream.reader.input.source.failures = [] := Source.failures_units _
  have text : stream.reader.begin.text = ['"', '\\', '6', '1', '\n', '"', 'b'] :=
    Normalizer.text_ofSource_ofText (by simp)
  have letter : Escape.read ['6', '1', '\n', '"', 'b'] = some ('a', ['"', 'b']) := by decide
  have row : glyphs ['\\', '6', '1', '\n', '"', 'b'] =
      [.escape ['6', '1', '\n']] ++ .plain '"' :: [.plain 'b'] := by
    have spelling : Escape.spelling ['6', '1', '\n', '"', 'b'] = ['6', '1', '\n'] := by decide
    rw [glyphs_of_escape letter, spelling]
    simp
  obtain ⟨token, given, -, -, string⟩ := next_ends_at_first_terminator noFailures
  obtain ⟨kind, covered⟩ :=
    (string '"' _ (.inl rfl) text).closed [.escape ['6', '1', '\n']] [.plain 'b'] (by decide) row
  exact ⟨token, given, kind, covered⟩

end TokenStream

end CssSyntax
