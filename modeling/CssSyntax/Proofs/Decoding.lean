import Mathlib.Data.List.DropRight
import CssSyntax.Proofs.Glyphs
import CssSyntax.Proofs.Numerals
import CssSyntax.Proofs.Streams
import CssSyntax.Proofs.Values

/-!
The value of a token is what its text says, by rules that look at nothing but its kind and its
text: the marks of the kind are taken off, and the escapes of what is left are resolved.
-/

namespace CssSyntax

open CodePoint Text

/-- A list less an ending that it may have. -/
def without {α : Type} [DecidableEq α] (ending list : List α) : List α :=
  if ending <:+ list then list.take (list.length - ending.length) else list

@[simp] theorem without_append {α : Type} [DecidableEq α] (ending list : List α) :
    without ending (list ++ ending) = list := by
  rw [without, if_pos (List.suffix_append ..), List.length_append, Nat.add_sub_cancel,
    List.take_left]

/-- One last element is taken off a list, and none inside it is mistaken for it. -/
theorem without_singleton {α : Type} [DecidableEq α] {last : α} {list ending : List α}
    (notIn : last ∉ list) (ends : ending = [last] ∨ ending = []) :
    without [last] (list ++ ending) = list := by
  rcases ends with rfl | rfl
  · exact without_append [last] list
  · rw [List.append_nil, without, if_neg]
    exact fun suffix => notIn (suffix.subset (List.mem_singleton_self last))

namespace Glyph

/-- What stands behind the first parenthesis that opens and the blanks after it. -/
def argument (row : List Glyph) : List Glyph :=
  ((row.dropWhile (· ≠ .plain '(')).drop 1).dropWhile isBlank

theorem isBlank_head {text : Text} (stops : StopsAt isWhitespace text) :
    ∀ glyph ∈ (glyphs text).head?, glyph.isBlank = false := by
  intro glyph first
  cases text using glyphs_induction with
  | nil => simp at first
  | plain c rest notEscape =>
      rw [glyphs_of_plain notEscape] at first
      cases first
      exact stopsAt_cons.mp stops
  | escape text e rest read =>
      rw [glyphs_of_escape read] at first
      cases first
      rfl
  | missing rest read =>
      rw [glyphs_of_missing_escape read] at first
      cases first
      split <;> rfl

theorem argument_append {name row : List Glyph} (unopened : .plain '(' ∉ name) (text : Text)
    (stops : ∀ glyph ∈ row.head?, glyph.isBlank = false) :
    argument (name ++ .plain '(' :: (blanks text ++ row)) = row := by
  have front : ∀ glyph ∈ name, decide (glyph ≠ .plain '(') := by
    intro glyph mem
    refine decide_eq_true ?_
    rintro rfl
    exact unopened mem
  rw [argument, List.dropWhile_append_of_pos front, List.dropWhile_cons_of_neg (by simp),
    List.drop_one, List.tail_cons, List.dropWhile_append_of_pos isBlank_of_mem_blanks]
  cases row with
  | nil => rfl
  | cons glyph row => exact List.dropWhile_cons_of_neg (by simp [stops glyph rfl])

theorem rdropWhile_append {inside ending : List Glyph}
    (clean : ∀ glyph ∈ inside, glyph.isBlank = false) (blank : ∀ glyph ∈ ending, glyph.isBlank) :
    (inside ++ ending).rdropWhile isBlank = inside := by
  have last : ∀ glyph ∈ ending.reverse, glyph.isBlank := by simpa using blank
  rw [List.rdropWhile, List.reverse_append, List.dropWhile_append_of_pos last]
  have kept : inside.rdropWhile isBlank = inside := by
    rw [List.rdropWhile_eq_self_iff]
    exact fun nonempty => by simp [clean _ (List.getLast_mem nonempty)]
  exact kept

end Glyph

namespace Kind

/-- A string is decoded without its quotes, and backslashes that begin no escape are dropped with
the line feeds behind them. -/
def decodeString : Text → Text
  | [] => []
  | quote :: inside =>
      Glyph.values ((without [.plain quote] (glyphs inside)).filter fun glyph => !glyph.isLone)

/-- A url is decoded from behind its parenthesis and the blanks after that, to the other parenthesis
and the blanks before it. -/
def decodeUrl (representation : Text) : Text :=
  let inside := Glyph.argument (glyphs representation)
  if [.plain ')'] <:+ inside then
    Glyph.values ((without [.plain ')'] inside).rdropWhile Glyph.isBlank)
  else Glyph.values inside

/-- A bad url keeps the blanks at its end and each backslash before a line feed. -/
def decodeBadUrl (representation : Text) : Text :=
  let inside := Glyph.argument (glyphs representation)
  Glyph.values ((without [.plain ')'] inside).filter (· ≠ .stray))

/-- The value that the text of a token of this kind has. -/
def decode (kind : Kind) (representation : Text) : Text :=
  match kind with
  | ident | dimension => unescape representation
  | function => unescape representation.dropLast
  | atKeyword | hash => unescape (representation.drop 1)
  | string | badString => decodeString representation
  | url => decodeUrl representation
  | badUrl => decodeBadUrl representation
  | comment => without ['*', '/'] (representation.drop 2)
  | _ => representation

end Kind

/-- A text is split in two, and what is read off it says what the front part does. -/
def Scanned.Decodes (scanned : Scanned) (text : Text) : Prop :=
  ∃ covered, text = covered ++ scanned.rest ∧
    scanned.lexeme.value = scanned.lexeme.kind.decode covered

theorem Comment.split_read (text : Text) :
    text = (read text).content ++ (if (read text).closed then ['*', '/'] else []) ++
      (read text).rest := by
  fun_induction read text with
  | case1 => rfl
  | case2 rest => rfl
  | case3 c rest notEnd inner ih => exact congrArg (c :: ·) ih

namespace Lexeme

theorem decodes_readComment (inside : Text) :
    (readComment inside).Decodes ('/' :: '*' :: inside) := by
  refine ⟨'/' :: '*' :: ((Comment.read inside).content ++
    if (Comment.read inside).closed then ['*', '/'] else []), ?_, ?_⟩
  · exact congrArg (['/', '*'] ++ ·) (Comment.split_read inside)
  · change _ = without ['*', '/'] _
    split
    · exact (without_append ..).symm
    · rw [List.append_nil, without, if_neg]
      · rfl
      · exact fun suffix => Comment.closing_notIn_content inside suffix.isInfix

theorem decodes_readString {quote : Char} (isQuote : quote = '"' ∨ quote = '\'') (text : Text) :
    (readString quote text).Decodes (quote :: text) := by
  have notBackslash : '\\' ≠ quote := by rcases isQuote with rfl | rfl <;> decide
  obtain ⟨inside, closing, split, closes, plain, value⟩ := Quoted.glyphs_read notBackslash text
  have unquoted : .plain quote ∉ inside := fun mem => (plain quote mem).1 rfl
  have ends : closing = [.plain quote] ∨ closing = [] := by
    rw [closes]
    split <;> simp
  refine ⟨quote :: (inside ++ closing).flatMap Glyph.text, ?_, ?_⟩
  · exact congrArg _ (eq_append_of_glyphs split)
  · have decoded : Kind.decodeString (quote :: (inside ++ closing).flatMap Glyph.text) =
        (Quoted.read quote text).content := by
      rw [Kind.decodeString, glyphs_flatMap_text split, without_singleton unquoted ends, value]
    rcases List.mem_pair.mp (kind_readString quote text) with kind | kind
    · rw [kind]
      exact decoded.symm
    · rw [kind]
      exact decoded.symm

theorem decodes_name (text : Text) :
    ∃ covered, text = covered ++ (Name.read text).2 ∧ (Name.read text).1 = unescape covered := by
  obtain ⟨name, split, value, -⟩ := Name.glyphs_read text
  refine ⟨name.flatMap Glyph.text, eq_append_of_glyphs split, ?_⟩
  rw [unescape, glyphs_flatMap_text split, value]

theorem decodes_readNumeric {n : Numeral} (wf : n.WellFormed) (after : Text) :
    (readNumeric n after).Decodes (n.text ++ after) := by
  by_cases percent : after.head? = some '%'
  · obtain ⟨rest, rfl⟩ := List.head?_eq_some_iff.mp percent
    rw [readNumeric_percentage]
    exact ⟨n.text ++ ['%'], by simp, rfl⟩
  · by_cases start : (Lookahead.ofText after).startsIdentifier
    · obtain ⟨covered, split, value⟩ := decodes_name after
      rw [readNumeric_dimension n start]
      refine ⟨n.text ++ covered, ?_, ?_⟩
      · rw [List.append_assoc, ← split]
      · change n.text ++ _ = unescape _
        rw [value, unescape, unescape, glyphs_append_of_plain (wf.notMem_text (by decide)),
          Glyph.values_append, Glyph.values_plain]
    · rw [readNumeric_number n percent start]
      exact ⟨n.text, rfl, rfl⟩

section

variable {text rest : Text} (call : (Name.read text).2 = '(' :: rest)

include call

theorem glyphs_call :
    ∃ name, glyphs text = name ++ .plain '(' :: glyphs rest ∧
      Glyph.values name = (Name.read text).1 ∧ .plain '(' ∉ name := by
  obtain ⟨name, split, value, plain⟩ := Name.glyphs_read text
  rw [call, glyphs_of_plain (by decide)] at split
  exact ⟨name, split, value, fun mem => absurd (plain '(' mem) (by decide)⟩

theorem decodes_function :
    Scanned.Decodes { lexeme := { kind := .function, value := (Name.read text).1 }, rest := rest }
      text := by
  obtain ⟨name, split, value, -⟩ := glyphs_call call
  have covered : glyphs text = (name ++ [.plain '(']) ++ glyphs rest := by
    rw [split, List.append_assoc]
    rfl
  refine ⟨_, eq_append_of_glyphs covered, ?_⟩
  have last : (name ++ [Glyph.plain '(']).flatMap Glyph.text =
      name.flatMap Glyph.text ++ ['('] := List.flatMap_append
  change _ = unescape (List.dropLast _)
  rw [last, List.dropLast_concat, unescape, glyphs_flatMap_text split, value]

/-- Glyphs behind the parenthesis of a call are its argument. -/
theorem exists_argument {row : List Glyph} {after : Text}
    (h : glyphs (rest.dropWhile isWhitespace) = row ++ glyphs after) :
    ∃ covered, text = covered ++ after ∧ Glyph.argument (glyphs covered) = row := by
  obtain ⟨name, split, -, unopened⟩ := glyphs_call call
  have stops : ∀ glyph ∈ row.head?, glyph.isBlank = false := by
    intro glyph first
    refine Glyph.isBlank_head (stopsAt_dropWhile isWhitespace rest) glyph ?_
    rw [h]
    exact List.mem_head?_append_of_mem_head? first
  have covered :
      glyphs text = (name ++ .plain '(' :: (Glyph.blanks rest ++ row)) ++ glyphs after := by
    rw [split, glyphs_blanks rest, h]
    simp
  refine ⟨_, eq_append_of_glyphs covered, ?_⟩
  rw [glyphs_flatMap_text covered, Glyph.argument_append unopened rest stops]

theorem decodes_readUrl : (readUrl (Name.read text).1 rest).Decodes text := by
  by_cases quote : (rest.dropWhile isWhitespace).head? = some '"' ∨
      (rest.dropWhile isWhitespace).head? = some '\''
  · rw [readUrl_function _ quote]
    exact decodes_function call
  · rw [readUrl_url _ quote]
    cases good : (Url.read (rest.dropWhile isWhitespace)).good with
    | true =>
        obtain ⟨inside, blanks, closing, encloses, ends, blank, clean, value⟩ :=
          Url.encloses_read_of_good good
        obtain ⟨covered, split, argument⟩ := exists_argument call encloses.split
        refine ⟨covered, split, ?_⟩
        change _ = Kind.decodeUrl covered
        rw [Kind.decodeUrl, argument, ← value]
        rcases encloses.closes with rfl | ⟨rfl, -⟩
        · rw [if_pos (List.suffix_append ..), without_append, Glyph.rdropWhile_append clean blank]
        · have unclosed := encloses.unclosed
          rw [ends rfl, List.append_nil] at unclosed ⊢
          have unended : ¬[.plain ')'] <:+ inside :=
            fun suffix => unclosed (suffix.subset (by simp))
          rw [List.append_nil, if_neg unended]
    | false =>
        obtain ⟨inside, closing, encloses, value⟩ := Url.encloses_read_of_bad good
        obtain ⟨covered, split, argument⟩ := exists_argument call encloses.split
        refine ⟨covered, split, ?_⟩
        change _ = Kind.decodeBadUrl covered
        rw [Kind.decodeBadUrl, argument,
          without_singleton encloses.unclosed (encloses.closes.imp_right And.left), value]

end

theorem decodes_readIdentLike (text : Text) : (readIdentLike text).Decodes text := by
  by_cases call : (Name.read text).2.head? = some '('
  · obtain ⟨rest, hrest⟩ := List.head?_eq_some_iff.mp call
    rw [readIdentLike_call hrest]
    split
    · exact decodes_readUrl hrest
    · exact decodes_function hrest
  · rw [readIdentLike_ident call]
    obtain ⟨covered, split, value⟩ := decodes_name text
    exact ⟨covered, split, value⟩

theorem decodes_read (text : Text) : (read text).Decodes text := by
  have reading := reading_read text
  generalize read text = scanned at reading ⊢
  cases reading with
  | endOfInput => exact ⟨[], rfl, rfl⟩
  | @whitespace c rest blank =>
      refine ⟨c :: rest.takeWhile isWhitespace, ?_, rfl⟩
      rw [List.cons_append, List.takeWhile_append_dropWhile]
  | @string c rest quote => exact decodes_readString quote rest
  | @symbol c kind rest symbol =>
      refine ⟨[c], rfl, ?_⟩
      unfold Kind.ofSymbol? at symbol
      split at symbol <;> cases symbol <;> rfl
  | @numeric c rest after n start numeral =>
      obtain ⟨split, wf, -⟩ := Numeral.read_eq_some_iff.mp numeral
      rw [split]
      exact decodes_readNumeric wf after
  | cdc => exact ⟨cdcMark, rfl, rfl⟩
  | identLike => exact decodes_readIdentLike _
  | @comment inside => exact decodes_readComment inside
  | cdo => exact ⟨cdoMark, rfl, rfl⟩
  | @hash rest name =>
      obtain ⟨covered, split, value⟩ := decodes_name rest
      exact ⟨'#' :: covered, congrArg _ split, value⟩
  | @atKeyword rest identifier =>
      obtain ⟨covered, split, value⟩ := decodes_name rest
      exact ⟨'@' :: covered, congrArg _ split, value⟩
  | @delim c rest alone => exact ⟨[c], rfl, rfl⟩

end Lexeme

theorem Scanned.value_token (text : Text) (start : Position) :
    let token := (Lexeme.read text).token text start
    token.value = token.kind.decode token.representation := by
  obtain ⟨covered, split, value⟩ := Lexeme.decodes_read text
  have whole := (representation_append text start).trans split
  simp only [List.append_cancel_right whole]
  exact value

/-- Each token of a source that does not fail has the value that its kind reads out of its text. -/
theorem TokenStream.drain_decodes (units : List UInt32) (reporter : Reporter) :
    ∃ tokens : List Token,
      (ofSource (units.map .unit) reporter).drain.result = tokens.map .ok ∧
      ∀ token ∈ tokens, token.value = token.kind.decode token.representation := by
  refine ⟨_, (drain_units units reporter).1, fun token mem => ?_⟩
  obtain ⟨found, among, rfl⟩ := List.mem_map.mp mem
  obtain ⟨-, behind, place, -, rfl⟩ := read_of_mem among
  exact Scanned.value_token behind place

end CssSyntax
