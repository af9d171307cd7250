import CssSyntax.Comment
import CssSyntax.Name
import CssSyntax.Quoted
import CssSyntax.Url

/-!
How the readers of names, comments, strings and urls go on, one step after another, and what the
tests for a name and an identifier have to do with the name that is then read.
-/

namespace CssSyntax

open CodePoint

theorem CodePoint.isNameStart_iff (c : Char) :
    isNameStart c ↔
      (((65 ≤ c.toNat ∧ c.toNat ≤ 90) ∨ (97 ≤ c.toNat ∧ c.toNat ≤ 122)) ∨ c = '_') ∨
        128 ≤ c.toNat := by
  have upper : c.isUpper ↔ 65 ≤ c.toNat ∧ c.toNat ≤ 90 := decide_eq_true_iff
  have lower : c.isLower ↔ 97 ≤ c.toNat ∧ c.toNat ≤ 122 := by
    change (decide (97 ≤ c.toNat) && decide (c.toNat ≤ 122)) ↔ _
    rw [Bool.and_eq_true, decide_eq_true_iff, decide_eq_true_iff]
  have letter : c.isAlpha ↔ c.isUpper ∨ c.isLower := by
    change (c.isUpper || c.isLower) ↔ _
    rw [Bool.or_eq_true]
  rw [isNameStart, Bool.or_eq_true, Bool.or_eq_true, letter, upper, lower, beq_iff_eq,
    decide_eq_true_iff]

/-- Digits do not begin names. -/
theorem CodePoint.not_isDigit_of_isNameStart {c : Char} (start : isNameStart c) :
    c.isDigit = false := by
  rw [← Bool.not_eq_true, Char.isDigit_iff_toNat]
  rintro ⟨zero, nine⟩
  change 48 ≤ c.toNat at zero
  change c.toNat ≤ 57 at nine
  rw [isNameStart_iff] at start
  rcases start with ((upper | lower) | rfl) | beyond
  · omega
  · omega
  · exact absurd nine (by decide)
  · omega

/-- The test for an escape is right about it. -/
theorem startsEscape_iff_read (text : Text) :
    startsEscape (some '\\') text.head? = (Escape.read text).isSome := by
  have missing : Escape.read text = none ↔ text = [] ∨ text.head? = some '\n' :=
    Escape.read_eq_none_iff
  cases h : Escape.read text with
  | none =>
      rcases missing.mp h with rfl | feed
      · rfl
      · simp [startsEscape, feed]
  | some found =>
      cases text with
      | nil => simp [Escape.read] at h
      | cons c rest =>
          have : c ≠ '\n' := by
            rintro rfl
            simp [Escape.read] at h
          simpa [startsEscape] using this

namespace Name

theorem continuesName_cons_iff (c : Char) (rest : Text) :
    (Lookahead.ofText (c :: rest)).continuesName ↔
      isName c ∨ (c = '\\' ∧ (Escape.read rest).isSome) := by
  by_cases backslash : c = '\\'
  · subst backslash
    rw [← startsEscape_iff_read]
    simp [Lookahead.continuesName, Lookahead.ofText, List.head?_eq_getElem?]
  · simp [Lookahead.continuesName, Lookahead.ofText, startsEscape, backslash]

theorem read_of_name {c : Char} (name : isName c) (rest : Text) :
    read (c :: rest) = (c :: (read rest).1, (read rest).2) := by
  rw [read, if_pos name]

theorem read_of_escape {rest after : Text} {e : Char} (h : Escape.read rest = some (e, after)) :
    read ('\\' :: rest) = (e :: (read after).1, (read after).2) := by
  rw [read, if_neg (by decide), if_pos rfl]
  split
  · next e' after' found =>
      rw [h] at found
      cases found
      rfl
  · next missing =>
      rw [h] at missing
      cases missing

/-- Where no name goes on, none is read. -/
theorem read_of_not_continuesName {text : Text} (h : ¬(Lookahead.ofText text).continuesName) :
    read text = ([], text) := by
  cases text with
  | nil => rw [read]
  | cons c rest =>
      rw [continuesName_cons_iff, not_or] at h
      rw [read, if_neg h.1]
      by_cases backslash : c = '\\'
      · rw [if_pos backslash]
        split
        · next e after found => exact absurd ⟨backslash, by rw [found]; rfl⟩ h.2
        · rfl
      · rw [if_neg backslash]

/-- A name goes on exactly where some of it is read. -/
theorem continuesName_iff (text : Text) :
    (Lookahead.ofText text).continuesName ↔ (read text).2.length < text.length := by
  refine ⟨length_read_lt, fun shorter => Decidable.byContradiction fun h => ?_⟩
  rw [read_of_not_continuesName h] at shorter
  exact Nat.lt_irrefl _ shorter

/-- A name begins, but not with a digit. -/
def Begins (text : Text) : Prop :=
  (Lookahead.ofText text).continuesName ∧ ∀ c ∈ text.head?, c.isDigit = false

theorem begins_cons_iff (c : Char) (rest : Text) :
    Begins (c :: rest) ↔ isNameStart c ∨ c = '-' ∨ (c = '\\' ∧ (Escape.read rest).isSome) := by
  have isName_iff (notDigit : c.isDigit = false) : isName c ↔ isNameStart c ∨ c = '-' := by
    simp [isName, notDigit]
  simp only [Begins, List.head?_cons, Option.mem_some_iff, forall_eq', continuesName_cons_iff]
  constructor
  · rintro ⟨name | escape, notDigit⟩
    · exact ((isName_iff notDigit).mp name).imp_right .inl
    · exact .inr (.inr escape)
  · rintro (start | rfl | ⟨rfl, escape⟩)
    · have notDigit := not_isDigit_of_isNameStart start
      exact ⟨.inl ((isName_iff notDigit).mpr (.inl start)), notDigit⟩
    · exact ⟨.inl (by decide), by decide⟩
    · exact ⟨.inr ⟨rfl, escape⟩, by decide⟩

/-- An identifier is a name that does not begin with a digit, not even behind a hyphen, where it
goes on. -/
theorem startsIdentifier_iff (text : Text) :
    (Lookahead.ofText text).startsIdentifier ↔
      Begins text ∧ (text.head? = some '-' → Begins text.tail) := by
  cases text with
  | nil => simp [Lookahead.startsIdentifier, Lookahead.ofText, Begins, Lookahead.continuesName,
      startsEscape]
  | cons c rest =>
      rw [begins_cons_iff, List.head?_cons, Option.some.injEq, List.tail_cons,
        ← startsEscape_iff_read]
      by_cases hyphen : c = '-'
      · subst hyphen
        cases rest with
        | nil => simp [Lookahead.startsIdentifier, Lookahead.ofText, Begins,
            Lookahead.continuesName, startsEscape]
        | cons d behind =>
            rw [begins_cons_iff, ← startsEscape_iff_read]
            simp [Lookahead.startsIdentifier, Lookahead.ofText, startsEscape,
              List.head?_eq_getElem?]
            grind
      · by_cases backslash : c = '\\'
        · subst backslash
          simp [Lookahead.startsIdentifier, Lookahead.ofText, List.head?_eq_getElem?, isNameStart]
        · simp [Lookahead.startsIdentifier, Lookahead.ofText, hyphen, backslash]

end Name

namespace Comment

theorem read_cons {c : Char} {rest : Text} (h : ¬(c = '*' ∧ rest.head? = some '/')) :
    read (c :: rest) = { read rest with content := c :: (read rest).content } := by
  rw [read]
  rintro after rfl rfl
  exact h ⟨rfl, rfl⟩

end Comment

namespace Quoted

variable {quote c : Char} {rest after : Text}

@[simp] theorem read_of_quote (quote : Char) (rest : Text) :
    read quote (quote :: rest) = ⟨[], .quote, rest⟩ := by
  rw [read, if_pos rfl]

theorem read_of_lineFeed (h : '\n' ≠ quote) (rest : Text) :
    read quote ('\n' :: rest) = ⟨[], .lineFeed, '\n' :: rest⟩ := by
  rw [read, if_neg h, if_pos rfl]

theorem read_of_escape {e : Char} (h : '\\' ≠ quote) (escape : Escape.read rest = some (e, after)) :
    read quote ('\\' :: rest) =
      { read quote after with content := e :: (read quote after).content } := by
  rw [read, if_neg h, if_neg (by decide), if_pos rfl]
  split
  · next e' after' found =>
      rw [escape] at found
      cases found
      rfl
  · next missing =>
      rw [escape] at missing
      cases missing

theorem read_of_missing_escape (h : '\\' ≠ quote) (missing : Escape.read rest = none) :
    read quote ('\\' :: rest) = read quote (rest.drop 1) := by
  rw [read, if_neg h, if_neg (by decide), if_pos rfl]
  split
  · next e after found =>
      rw [missing] at found
      cases found
  · rfl

theorem read_of_plain (notQuote : c ≠ quote) (notFeed : c ≠ '\n') (notEscape : c ≠ '\\')
    (rest : Text) :
    read quote (c :: rest) =
      { read quote rest with content := c :: (read quote rest).content } := by
  rw [read, if_neg notQuote, if_neg notFeed, if_neg notEscape]

end Quoted

namespace Url

variable {c : Char} {rest after : Text}

@[simp] theorem readRemnants_of_close (rest : Text) : readRemnants (')' :: rest) = ([], rest) := by
  rw [readRemnants, if_pos rfl]

theorem readRemnants_of_escape {e : Char} (h : Escape.read rest = some (e, after)) :
    readRemnants ('\\' :: rest) = (e :: (readRemnants after).1, (readRemnants after).2) := by
  rw [readRemnants, if_neg (by decide), if_pos rfl]
  split
  · next e' after' found =>
      rw [h] at found
      cases found
      rfl
  · next missing =>
      rw [h] at missing
      cases missing

theorem readRemnants_of_missing_escape (h : Escape.read rest = none) (more : rest ≠ []) :
    readRemnants ('\\' :: rest) = ('\\' :: (readRemnants rest).1, (readRemnants rest).2) := by
  rw [readRemnants, if_neg (by decide), if_pos rfl]
  split
  · next e after found =>
      rw [h] at found
      cases found
  · rw [if_neg more]

@[simp] theorem readRemnants_of_end : readRemnants ['\\'] = ([], []) := by
  rw [readRemnants, if_neg (by decide), if_pos rfl]
  rfl

theorem readRemnants_of_plain (notClosed : c ≠ ')') (notEscape : c ≠ '\\') (rest : Text) :
    readRemnants (c :: rest) = (c :: (readRemnants rest).1, (readRemnants rest).2) := by
  rw [readRemnants, if_neg notClosed, if_neg notEscape]

theorem length_readRemnants_lt (c : Char) (rest : Text) :
    (readRemnants (c :: rest)).2.length < (c :: rest).length := by
  by_cases closed : c = ')'
  · rw [closed, readRemnants_of_close]
    exact Nat.lt_succ_self _
  · by_cases backslash : c = '\\'
    · subst backslash
      cases escape : Escape.read rest with
      | some found =>
          rw [readRemnants_of_escape escape]
          exact Nat.lt_succ_of_le (Nat.le_trans (length_readRemnants_le _)
            (Nat.le_of_lt (Escape.length_lt_of_read escape)))
      | none =>
          by_cases more : rest = []
          · rw [more, readRemnants_of_end]
            exact Nat.zero_lt_one
          · rw [readRemnants_of_missing_escape escape more]
            exact Nat.lt_succ_of_le (length_readRemnants_le rest)
    · rw [readRemnants_of_plain closed backslash]
      exact Nat.lt_succ_of_le (length_readRemnants_le rest)

@[simp] theorem read_of_close (rest : Text) : read (')' :: rest) = ⟨[], true, rest⟩ := by
  rw [read, if_pos rfl]

theorem read_of_blank_closed (notClosed : c ≠ ')') (blank : isWhitespace c)
    (closed : rest.dropWhile isWhitespace = ')' :: after) :
    read (c :: rest) = ⟨[], true, after⟩ := by
  rw [read, if_neg notClosed, if_pos blank]
  simp only [closed]

theorem read_of_blank_spoiled (notClosed : c ≠ ')') (blank : isWhitespace c)
    (more : (rest.dropWhile isWhitespace).head? ≠ some ')') :
    read (c :: rest) =
      spoiled (c :: rest.takeWhile isWhitespace) (rest.dropWhile isWhitespace) := by
  rw [read, if_neg notClosed, if_pos blank]
  split
  · next after closed =>
      rw [closed] at more
      exact absurd rfl more
  · rfl

theorem read_of_spoils (notClosed : c ≠ ')') (notBlank : ¬isWhitespace c) (h : spoils c)
    (rest : Text) : read (c :: rest) = spoiled [c] rest := by
  rw [read, if_neg notClosed, if_neg notBlank, if_pos h]

theorem read_of_escape {e : Char} (h : Escape.read rest = some (e, after)) :
    read ('\\' :: rest) = { read after with content := e :: (read after).content } := by
  rw [read, if_neg (by decide), if_neg (by decide), if_neg (by decide), if_pos rfl]
  split
  · next e' after' found =>
      rw [h] at found
      cases found
      rfl
  · next missing =>
      rw [h] at missing
      cases missing

theorem read_of_missing_escape (h : Escape.read rest = none) :
    read ('\\' :: rest) = spoiled [] ('\\' :: rest) := by
  rw [read, if_neg (by decide), if_neg (by decide), if_neg (by decide), if_pos rfl]
  split
  · next e after found =>
      rw [h] at found
      cases found
  · rfl

theorem read_of_plain (notClosed : c ≠ ')') (notBlank : ¬isWhitespace c) (clean : ¬spoils c)
    (notEscape : c ≠ '\\') (rest : Text) :
    read (c :: rest) = { read rest with content := c :: (read rest).content } := by
  rw [read, if_neg notClosed, if_neg notBlank, if_neg clean, if_neg notEscape]

end Url

end CssSyntax
