import CssSyntax.Escape
import CssSyntax.Lookahead

/-!
Names and identifiers. A name is any run of name code points and escapes; an identifier is a
name that also begins like one, so its written form escapes a leading digit and a lone hyphen.
-/

namespace CssSyntax

open CodePoint

namespace Name

/-- Reads the longest name at the start of a text, with its escapes resolved. It may be
empty. -/
def read (text : Text) : Text × Text :=
  match text with
  | [] => ([], [])
  | c :: rest =>
      if isName c then
        let inner := read rest
        (c :: inner.1, inner.2)
      else if c = '\\' then
        match _h : Escape.read rest with
        | some (e, after) =>
            let inner := read after
            (e :: inner.1, inner.2)
        | none => ([], text)
      else ([], text)
termination_by text.length
decreasing_by
  · exact Nat.lt_succ_self _
  · exact Nat.lt_succ_of_lt (Escape.length_lt_of_read _h)

theorem length_read_le (text : Text) : (read text).2.length ≤ text.length := by
  fun_induction read text with
  | case1 => exact Nat.le_refl _
  | case2 c rest _ inner ih => exact Nat.le_succ_of_le ih
  | case3 rest e after h inner _ ih =>
      exact Nat.le_trans ih (Nat.le_succ_of_le (Nat.le_of_lt (Escape.length_lt_of_read h)))
  | case4 => exact Nat.le_refl _
  | case5 => exact Nat.le_refl _

/-- Where a name goes on, some of it is read. -/
theorem length_read_lt {text : Text} (h : (Lookahead.ofText text).continuesName) :
    (read text).2.length < text.length := by
  cases text with
  | nil => simp [Lookahead.continuesName, Lookahead.ofText, startsEscape] at h
  | cons c rest =>
      rw [read]
      split
      · exact Nat.lt_succ_of_le (length_read_le rest)
      · next notName =>
          have escape : startsEscape (some c) rest[0]? := by
            simpa [Lookahead.continuesName, Lookahead.ofText, notName] using h
          simp only [startsEscape, Bool.and_eq_true, beq_iff_eq, Option.some.injEq,
            bne_iff_ne] at escape
          rw [if_pos escape.1.1]
          split
          · next e after hread =>
              exact Nat.lt_succ_of_lt
                (Nat.lt_of_le_of_lt (length_read_le after) (Escape.length_lt_of_read hread))
          · next hread =>
              rcases Escape.read_eq_none_iff.mp hread with ended | feed
              · exact absurd (by simp [ended]) escape.1.2
              · exact absurd (by rw [← List.head?_eq_getElem?]; exact feed) escape.2

/-- How a code point is written in a name: controls by number, and the rest of ASCII that is
no name code point behind a backslash. -/
def form? (c : Char) : Option Text :=
  if isName c then none
  else if isControl c then some (Escape.byNumber c)
  else some (Escape.byItself c)

/-- The pieces of the name as it is written. -/
def pieces (name : Text) : List Text := Escape.pieces form? [] name

end Name

namespace Identifier

/-- The pieces of an identifier behind its leading hyphen, if it has one. -/
def tail : Text → List Text
  | [] => []
  | c :: rest =>
      if c.isDigit then Escape.byNumber c :: Name.pieces rest else Name.pieces (c :: rest)

/-- The pieces of the identifier as it is written. -/
def pieces : Text → List Text
  | ['-'] => [['\\', '-']]
  | '-' :: '-' :: rest => ['-', '-'] :: Name.pieces rest
  | '-' :: rest => ['-'] :: tail rest
  | name => tail name

end Identifier

end CssSyntax
