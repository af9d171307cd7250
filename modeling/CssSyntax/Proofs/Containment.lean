import CssSyntax.Proofs.Restarting
import CssSyntax.Proofs.RoundTrip

/-!
Values in front of other text. What is written for a string, a url or an identifier is one token
whatever its value is, and the text behind it has the tokens that it has on its own; so no value can
reach out of its token. An identifier needs a text behind it that does not go on its name.
-/

namespace CssSyntax

open Text

namespace Units

@[simp] theorem foldLines_append {front : Text} (normal : front.IsNormal) (text : Text) :
    foldLines (front ++ text) = front ++ foldLines text := by
  induction front with
  | nil => rfl
  | cons c front ih =>
      obtain ⟨⟨_, noReturn, noForm⟩, behind⟩ := List.forall_mem_cons.mp normal
      rw [List.cons_append, foldLines_cons noReturn noForm, ih behind, List.cons_append]

/-- Normal text ends in no part of a line end, so what stands behind it is normalized alone. -/
@[simp] theorem normalize_append {front : Text} (normal : front.IsNormal) (text : Text) :
    normalize (ofText (front ++ text)) = front ++ normalize (ofText text) := by
  have noNul : '\x00' ∉ front := normal.nul_notMem
  have split : (front ++ text).replaceNul = front.replaceNul ++ text.replaceNul := List.map_append
  rw [normalize_ofText_eq, normalize_ofText_eq, split, Text.replaceNul_eq_self noNul,
    foldLines_append normal]

end Units

/-- A lexeme that is read off the front of a text with nothing of the rest is its first token, and
the others are those of the rest on its own. -/
theorem tokenize_append_of_read {front text : Text} {lexeme : Lexeme} (nonempty : front ≠ [])
    (normal : front.IsNormal)
    (hread : Lexeme.read (front ++ Units.normalize (Units.ofText text)) =
      { lexeme := lexeme, rest := Units.normalize (Units.ofText text) }) :
    tokenize (front ++ text) =
      ⟨lexeme, front, .start⟩ :: (tokenize text).map (Token.behind front) := by
  rw [tokenize, tokenize, Units.normalize_append normal]
  generalize Units.normalize (Units.ofText text) = rest at hread ⊢
  have first : (Lexeme.read (front ++ rest)).token (front ++ rest) .start =
      ⟨lexeme, front, .start⟩ := by
    simp [Scanned.token, hread]
  have later := tokensFrom_behind front Position.counted_start rest
  rw [Position.behind_start] at later
  rw [tokensFrom_of_ne_nil (List.append_ne_nil_of_left_ne_nil nonempty rest), first, hread, later,
    List.map_cons, List.map_map, List.map_map]
  rfl

/-- A string and a url hold whatever they are written for, with replacement characters in the place
of NULs, and end where they were written to end, whatever text stands behind them. -/
theorem tokenize_enclosed_append (value text : Text) :
    let string : Text := (Quoted.pieces value).flatten
    let url : Text := ['u', 'r', 'l', '('] ++ (Url.contentPieces value).flatten ++ [')']
    tokenize (string ++ text) =
        ⟨{ kind := .string, value := value.replaceNul }, string, .start⟩ ::
          (tokenize text).map (Token.behind string) ∧
      tokenize (url ++ text) =
        ⟨{ kind := .url, value := value.replaceNul }, url, .start⟩ ::
          (tokenize text).map (Token.behind url) := by
  intro string url
  constructor
  · have whole : string = ['"'] ++ ((Quoted.contentPieces value).flatten ++ ['"']) := by
      simp [string, Quoted.pieces]
    have normal : string.IsNormal := by
      rw [whole]
      simp
    apply tokenize_append_of_read (by simp [whole]) normal
    rw [whole, List.append_assoc, List.append_assoc]
    exact Lexeme.read_written_string value _
  · have whole : url = ['u', 'r', 'l', '('] ++ ((Url.contentPieces value).flatten ++ [')']) :=
      List.append_assoc _ _ _
    have normal : url.IsNormal := by
      rw [whole]
      simp
    apply tokenize_append_of_read (by simp [whole]) normal
    rw [whole, List.append_assoc, List.append_assoc]
    exact Lexeme.read_written_url value _

/-- An identifier is one token in front of any normal text that does not go on its name and is not
its argument list, but for two hyphens in front of a greater-than sign. -/
theorem tokenize_identifier_append {value text : Text} (nonempty : value ≠ [])
    (noNul : '\x00' ∉ value) (normal : text.IsNormal)
    (ends : ¬(Lookahead.ofText text).continuesName) (notCall : text.head? ≠ some '(')
    (notMark : ¬(value = ['-', '-'] ∧ text.head? = some '>')) :
    tokenize (Identifier.written value ++ text) =
      ⟨{ kind := .ident, value := value }, Identifier.written value, .start⟩ ::
        (tokenize text).map (Token.behind (Identifier.written value)) := by
  have writable : Lexeme.Writable { kind := .ident, value := value } := .ident ⟨nonempty, noNul⟩
  have stays : Lexeme.StaysBefore { kind := .ident, value := value } text :=
    ⟨⟨ends, notCall⟩, fun _ hyphens greater => notMark ⟨hyphens, greater⟩, nofun⟩
  have hread := writable.read_css_append stays
  have nonempty := writable.css_ne_nil
  rw [Lexeme.css_ident] at hread nonempty
  apply tokenize_append_of_read nonempty (Identifier.isNormal_written value)
  rw [Units.normalize_ofText normal]
  exact hread

/-- A lone hyphen is written as an escape, and a backslash at the end of the input is none. -/
theorem tokenize_identifier_append_hyphen :
    let value : Text := ['-']
    let text : Text := ['\\']
    value ≠ [] ∧ '\x00' ∉ value ∧ text.IsNormal ∧ ¬(Lookahead.ofText text).continuesName ∧
      text.head? ≠ some '(' ∧ ¬(value = ['-', '-'] ∧ text.head? = some '>') ∧
      tokenize ['\\', '-', '\\'] =
        ⟨{ kind := .ident, value := value }, ['\\', '-'], .start⟩ ::
          (tokenize text).map (Token.behind ['\\', '-']) := by
  intro value text
  have nonempty : value ≠ [] := by decide
  have noNul : '\x00' ∉ value := by decide
  have normal : text.IsNormal := by simp [text]
  have ends : ¬(Lookahead.ofText text).continuesName := by decide
  have notCall : text.head? ≠ some '(' := by decide
  have notMark : ¬(value = ['-', '-'] ∧ text.head? = some '>') := by decide
  exact ⟨nonempty, noNul, normal, ends, notCall, notMark,
    tokenize_identifier_append nonempty noNul normal ends notCall notMark⟩

end CssSyntax
