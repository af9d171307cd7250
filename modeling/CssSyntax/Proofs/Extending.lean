import CssSyntax.Proofs.Boundaries
import CssSyntax.Proofs.Forms
import CssSyntax.Proofs.Relexing

/-!
Text put behind a text. It changes nothing about the tokens that end at least three code points
before it, since no token is decided by more than the three code points behind it; and normalization
keeps what comes first, whatever line end is cut in two.
-/

namespace CssSyntax

open CodePoint Text

namespace Units

/-- A line end may go on in the text behind, but is folded to the same line feed. -/
theorem foldLines_append_prefix (text more : Text) :
    foldLines text <+: foldLines (text ++ more) := by
  fun_induction foldLines text with
  | case1 rest ih => exact List.cons_prefix_cons.mpr ⟨rfl, ih⟩
  | case2 rest notFeed ih =>
      cases rest with
      | nil =>
          rw [foldLines, List.singleton_append]
          by_cases feed : more.head? = some '\n'
          · obtain ⟨behind, rfl⟩ := List.head?_eq_some_iff.mp feed
            exact ⟨foldLines behind, rfl⟩
          · rw [foldLines_return feed]
            exact ⟨foldLines more, rfl⟩
      | cons c rest =>
          have plain : (c :: rest ++ more).head? ≠ some '\n' := by
            rintro ⟨⟩
            exact notFeed rest rfl
          rw [List.cons_append, foldLines_return plain]
          exact List.cons_prefix_cons.mpr ⟨rfl, ih⟩
  | case3 rest ih => exact List.cons_prefix_cons.mpr ⟨rfl, ih⟩
  | case4 c rest _ noReturn noForm ih =>
      rw [List.cons_append, foldLines_cons noReturn noForm]
      exact List.cons_prefix_cons.mpr ⟨rfl, ih⟩
  | case5 => exact List.nil_prefix

theorem normalize_append_prefix (text more : Text) :
    normalize (ofText text) <+: normalize (ofText (text ++ more)) := by
  rw [normalize_ofText_eq, normalize_ofText_eq, Text.replaceNul, Text.replaceNul, List.map_append]
  exact foldLines_append_prefix _ _

end Units

namespace Lexeme

/-- What a lexeme needs behind it still comes first when there is more behind. -/
theorem EndsBefore.followed {lexeme : Lexeme} {rest : Text} (ends : lexeme.EndsBefore rest)
    (more : Text) : lexeme.Followed (rest ++ more) := by
  constructor
  · intro kind
    simp only [EndsBefore, kind] at ends
    obtain ⟨behind, rfl⟩ := List.head?_eq_some_iff.mp ends
    rfl
  · intro kind isUrl
    simp only [EndsBefore, kind] at ends
    have quote := ends ((isUrlName_iff _).mp isUrl)
    have stays {c : Char} (first : (rest.dropWhile isWhitespace).head? = some c) :
        ((rest ++ more).dropWhile isWhitespace).head? = some c := by
      obtain ⟨behind, drops⟩ := List.head?_eq_some_iff.mp first
      rw [List.dropWhile_append, drops]
      rfl
    exact quote.imp stays stays

/-- A lexeme with three code points behind it is read as it was when there is more behind them. -/
theorem read_append {text : Text} (far : 3 ≤ (read text).rest.length) (more : Text) :
    read (text ++ more) = { read text with rest := (read text).rest ++ more } := by
  obtain ⟨front, split, hfront⟩ := local_read text
  have near : Near ((read text).rest ++ more) (read text).rest := by
    rw [Near, List.take_append_of_le_length far]
    exact List.take_prefix 3 _
  have again := hfront _ near ((endsBefore_read text).followed more)
  rwa [← List.append_assoc, ← split] at again

end Lexeme

theorem Scanned.token_append (scanned : Scanned) (text more : Text) (start : Position) :
    ({ scanned with rest := scanned.rest ++ more } : Scanned).token (text ++ more) start =
      scanned.token text start := by
  simp only [token, List.length_append, Nat.add_sub_add_right]
  rw [List.take_append_of_le_length (Nat.sub_le _ _)]

/-- The first tokens of a text stay, places included, when there is more behind it, as long as they
end three code points before its end. -/
theorem tokensFrom_append_prefix {start : Position} {text : Text}
    {before behind : List (Token × Option ParseError)}
    (h : tokensFrom start text = before ++ behind)
    (far : ((before.map Prod.fst).flatMap Token.representation).length + 3 ≤ text.length)
    (more : Text) : before <+: tokensFrom start (text ++ more) := by
  induction start, text using tokensFrom_induction generalizing before with
  | endOfInput start => exact absurd far (by simp)
  | token start text nonempty ih =>
      cases before with
      | nil => exact List.nil_prefix
      | cons first before =>
          rw [tokensFrom_of_ne_nil nonempty] at h
          obtain ⟨rfl, later⟩ := List.cons.inj h
          have whole := congrArg List.length (Scanned.representation_append text start)
          simp only [List.map_cons, List.flatMap_cons, List.length_append] at far whole
          have left : 3 ≤ (Lexeme.read text).rest.length := by omega
          have again := Lexeme.read_append left more
          rw [tokensFrom_of_ne_nil (by simp [nonempty]), again, Scanned.token_append]
          exact List.cons_prefix_cons.mpr ⟨rfl, ih later (by omega)⟩

/-- A token ends where the text of all tokens up to it does. -/
theorem stop_of_tokensFrom {text : Text} {before behind : List (Token × Option ParseError)}
    {found : Token × Option ParseError}
    (h : tokensFrom .start text = (before ++ [found]) ++ behind) :
    found.1.start.offset + found.1.representation.length =
      (((before ++ [found]).map Prod.fst).flatMap Token.representation).length := by
  have covers := covers_tokensFrom .start text
  rw [h, List.append_assoc, List.singleton_append, List.map_append, List.map_cons] at covers
  rw [covers.start_eq, Position.offset_after, List.map_append, List.flatMap_append,
    List.length_append]
  simp [Position.start]

/-- A token that ends three code points before the end of the normal form of a text is a token of
every text that goes on from there, at the same index and in the same place. -/
theorem tokenize_append (text more : Text) {i : Nat} {token : Token}
    (found : (tokenize text)[i]? = some token)
    (far : token.start.offset + token.representation.length + 3 ≤
      (Units.normalize (Units.ofText text)).length) :
    (tokenize (text ++ more))[i]? = some token := by
  obtain ⟨longer, hlonger⟩ := Units.normalize_append_prefix text more
  rw [tokenize, List.getElem?_map, Option.map_eq_some_iff] at found ⊢
  rw [← hlonger]
  generalize Units.normalize (Units.ofText text) = normal at far found
  obtain ⟨first, hfirst, rfl⟩ := found
  obtain ⟨within, rfl⟩ := List.getElem?_eq_some_iff.mp hfirst
  let tokens := tokensFrom .start normal
  have split : tokens = (tokens.take i ++ [tokens[i]]) ++ tokens.drop (i + 1) := by
    rw [List.take_append_getElem within, List.take_append_drop]
  rw [stop_of_tokensFrom split] at far
  have again := tokensFrom_append_prefix split far longer
  rw [List.take_append_getElem within, List.prefix_iff_getElem?] at again
  have last : i < (tokens.take (i + 1)).length := by
    rw [List.length_take_of_le within]
    exact Nat.lt_succ_self i
  refine ⟨tokens[i], ?_, rfl⟩
  rw [again i last, List.getElem_take]

/-- Three code points settle that a less-than sign stands alone, also where the last of them is half
of a line end. -/
theorem tokenize_append_less :
    let less : Token := ⟨{ kind := .delim, value := ['<'] }, ['<'], .start⟩
    let text : Text := ['<', '!', '-', '\r']
    (tokenize text)[0]? = some less ∧
      less.start.offset + less.representation.length + 3 ≤
        (Units.normalize (Units.ofText text)).length ∧
      (tokenize (text ++ ['\n', '-']))[0]? = some less := by
  intro less text
  have normal : Units.normalize (Units.ofText text) = ['<', '!', '-', '\n'] := by decide
  have found : (tokenize text)[0]? = some less := by
    rw [tokenize, normal, tokensFrom_of_ne_nil (by decide)]
    rfl
  have far : less.start.offset + less.representation.length + 3 ≤
      (Units.normalize (Units.ofText text)).length := by
    rw [normal]
    decide
  exact ⟨found, far, tokenize_append text ['\n', '-'] found far⟩

end CssSyntax
