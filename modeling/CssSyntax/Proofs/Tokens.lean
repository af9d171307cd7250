import CssSyntax.Proofs.Lexemes
import CssSyntax.Tokenize

/-!
The tokens of a text, one behind another: each takes its representation off the front of the text,
and the tokens of what is left follow it.
-/

namespace CssSyntax

open Text

namespace Lexeme

/-- What stands behind a lexeme is the end of the text it was read from. -/
theorem rest_suffix (text : Text) : ∃ covered, text = covered ++ (read text).rest := by
  let r : Reader := { input := .ofSource [], ahead := text }
  have htext : r.text = text := by
    have ended : (Normalizer.ofSource []).text = [] := (Normalizer.text_of_end rfl).1
    simp [r, Reader.text, ended]
  obtain ⟨after, _, hrest, moves⟩ := (Reader.reads_lexeme r).ok rfl
  have keeps := moves.keeps.1
  rw [hrest, htext] at keeps
  exact ⟨after.taken.reverse, by simpa [r] using keeps.symm⟩

/-- What starts neither with a blank nor at the end of the text is read as neither of them. -/
theorem kind_read_cases {text : Text} (h : text ≠ []) :
    (∃ c rest, text = c :: rest ∧ CodePoint.isWhitespace c) ∨
      (read text).lexeme.kind ∉ [Kind.endOfInput, .whitespace] := by
  have other {kind : Kind} {kinds : List Kind} (mem : kind ∈ kinds)
      (apart : ∀ k ∈ kinds, k ∉ [Kind.endOfInput, .whitespace]) :
      kind ∉ [Kind.endOfInput, .whitespace] := apart kind mem
  have reading := reading_read text
  generalize read text = scanned at reading ⊢
  cases reading with
  | endOfInput => exact absurd rfl h
  | @whitespace c rest blank => exact .inl ⟨c, rest, rfl, blank⟩
  | @string c rest quote => exact .inr (other (kind_readString c rest) (by decide))
  | symbol symbol => exact .inr (other (kind_of_symbol symbol) (by decide))
  | @numeric c rest after n => exact .inr (other (kind_readNumeric n after) (by decide))
  | identLike => exact .inr (other (kind_readIdentLike _) (by decide))
  | _ => exact .inr (by simp [readComment, delimited])

/-- Only the end of the text reads as its end. -/
theorem kind_read_ne_endOfInput {text : Text} (h : text ≠ []) :
    (read text).lexeme.kind ≠ .endOfInput := by
  rcases kind_read_cases h with ⟨c, rest, rfl, blank⟩ | other
  · simp [read_of_blank blank]
  · exact fun ended => other (by simp [ended])

/-- Only blanks read as blanks. -/
theorem kind_read_ne_whitespace {text : Text} (h : StopsAt CodePoint.isWhitespace text) :
    (read text).lexeme.kind ≠ .whitespace := by
  by_cases ended : text = []
  · rw [ended]
    decide
  · rcases kind_read_cases ended with ⟨c, rest, rfl, blank⟩ | other
    · rw [stopsAt_cons.mp h] at blank
      cases blank
    · exact fun same => other (by simp [same])

end Lexeme

/-- A token covers what stands in front of the text that is left. -/
theorem Scanned.representation_of_split {scanned : Scanned} {text covered : Text}
    (split : text = covered ++ scanned.rest) (start : Position) :
    (scanned.token text start).representation = covered := by
  subst split
  simp [Scanned.token]

theorem Scanned.representation_append (text : Text) (start : Position) :
    ((Lexeme.read text).token text start).representation ++ (Lexeme.read text).rest = text := by
  obtain ⟨covered, split⟩ := Lexeme.rest_suffix text
  rw [representation_of_split split start]
  exact split.symm

theorem Scanned.representation_ne_nil {text : Text} (h : text ≠ []) (start : Position) :
    ((Lexeme.read text).token text start).representation ≠ [] := by
  intro empty
  have split := representation_append text start
  have shorter := Lexeme.length_read_lt h
  rw [empty, List.nil_append] at split
  rw [split] at shorter
  exact Nat.lt_irrefl _ shorter

/-- The first of the tokens is the one read off the front of the text. -/
theorem tokensFrom_eq_cons (start : Position) (text : Text) :
    ∃ behind, tokensFrom start text =
      ((Lexeme.read text).token text start, (Lexeme.read text).parseError? start) :: behind := by
  by_cases empty : text = []
  · rw [empty, tokensFrom_nil]
    exact ⟨[], rfl⟩
  · rw [tokensFrom_of_ne_nil empty]
    exact ⟨_, rfl⟩

/-- The tokens of a text that is one lexeme as a whole. -/
theorem tokensFrom_of_whole {text : Text} (nonempty : text ≠ [])
    (h : (Lexeme.read text).rest = []) (start : Position) :
    tokensFrom start text =
      [(⟨(Lexeme.read text).lexeme, text, start⟩, (Lexeme.read text).parseError? start),
        (endToken (start.after text), none)] := by
  have whole : (Lexeme.read text).token text start = ⟨(Lexeme.read text).lexeme, text, start⟩ := by
    simp [Scanned.token, h]
  rw [tokensFrom_of_ne_nil nonempty, whole, h, tokensFrom_nil]

theorem length_tokensFrom_le (start : Position) (text : Text) :
    (tokensFrom start text).length ≤ text.length + 1 := by
  induction start, text using tokensFrom_induction with
  | endOfInput start => simp
  | token start text nonempty ih =>
      have := Lexeme.length_read_lt nonempty
      rw [tokensFrom_of_ne_nil nonempty, List.length_cons]
      omega

/-- The tokens behind any of the others are the tokens of the text behind it. -/
theorem tokensFrom_split {start : Position} {text : Text}
    {before behind : List (Token × Option ParseError)}
    (h : tokensFrom start text = before ++ behind) (more : behind ≠ []) :
    let covered := (before.map Prod.fst).flatMap Token.representation
    ∃ rest, text = covered ++ rest ∧ behind = tokensFrom (start.after covered) rest := by
  induction start, text using tokensFrom_induction generalizing before with
  | endOfInput start =>
      cases before with
      | nil => exact ⟨[], rfl, h.symm⟩
      | cons first before =>
          rw [tokensFrom_nil] at h
          obtain ⟨_, rfl⟩ := List.append_eq_nil_iff.mp (List.cons.inj h).2.symm
          exact absurd rfl more
  | token start text nonempty ih =>
      cases before with
      | nil => exact ⟨text, rfl, h.symm⟩
      | cons first before =>
          rw [tokensFrom_of_ne_nil nonempty] at h
          obtain ⟨rfl, later⟩ := List.cons.inj h
          obtain ⟨rest, split, rfl⟩ := ih later
          have whole := Scanned.representation_append text start
          refine ⟨rest, ?_, ?_⟩
          · rw [split, ← List.append_assoc] at whole
            exact whole.symm
          · rw [List.map_cons, List.flatMap_cons, Position.after_append]

/-- Every token is read from the text that is left where it starts. -/
theorem read_of_mem {start : Position} {text : Text} {found : Token × Option ParseError}
    (mem : found ∈ tokensFrom start text) :
    ∃ front behind place, text = front ++ behind ∧
      found =
        ((Lexeme.read behind).token behind place, (Lexeme.read behind).parseError? place) := by
  obtain ⟨before, after, split⟩ := List.append_of_mem mem
  obtain ⟨behind, whole, left⟩ := tokensFrom_split split (List.cons_ne_nil _ _)
  obtain ⟨later, first⟩ :=
    tokensFrom_eq_cons (start.after ((before.map Prod.fst).flatMap Token.representation)) behind
  rw [first] at left
  exact ⟨_, behind, _, whole, (List.cons.inj left).1⟩

/-- Where a token is not the end, there is text left. -/
theorem exists_read_of_mem {start : Position} {text : Text} {found : Token × Option ParseError}
    (mem : found ∈ tokensFrom start text) (notEnd : found.1.kind ≠ .endOfInput) :
    ∃ front behind place, text = front ++ behind ∧ behind ≠ [] ∧
      found =
        ((Lexeme.read behind).token behind place, (Lexeme.read behind).parseError? place) := by
  obtain ⟨front, behind, place, whole, rfl⟩ := read_of_mem mem
  refine ⟨front, behind, place, whole, ?_, rfl⟩
  rintro rfl
  exact notEnd rfl

end CssSyntax
