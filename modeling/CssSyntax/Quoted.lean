import CssSyntax.Escape

/-!
Quoted strings. A backslash before a line feed continues the string on the next line, and a line
feed on its own breaks it off. Strings are written in double quotes.
-/

namespace CssSyntax.Quoted

open CodePoint

/-- What a string ended at. -/
inductive Ending where
  | quote
  | lineFeed
  | endOfInput
  deriving DecidableEq, Repr

/-- The inside of a string, read from behind its opening quote. A line feed that broke the string
off is still in `rest`. -/
structure Reading where
  content : Text
  ending : Ending
  rest : Text

/-- Reads a string up to the next `quote`. A backslash that starts no escape stands before a line
feed or at the end, and is dropped together with it. -/
def read (quote : Char) (text : Text) : Reading :=
  match text with
  | [] => ⟨[], .endOfInput, []⟩
  | c :: rest =>
      if c = quote then ⟨[], .quote, rest⟩
      else if c = '\n' then ⟨[], .lineFeed, text⟩
      else if c = '\\' then
        match _h : Escape.read rest with
        | some (e, after) =>
            let inner := read quote after
            { inner with content := e :: inner.content }
        | none => read quote (rest.drop 1)
      else
        let inner := read quote rest
        { inner with content := c :: inner.content }
termination_by text.length
decreasing_by
  · exact Nat.lt_succ_of_lt (Escape.length_lt_of_read _h)
  · exact Nat.lt_succ_of_le (List.length_drop ▸ Nat.sub_le _ 1)
  · exact Nat.lt_succ_self _

theorem length_read_le (quote : Char) (text : Text) :
    (read quote text).rest.length ≤ text.length := by
  fun_induction read quote text with
  | case1 => exact Nat.le_refl _
  | case2 => exact Nat.le_succ _
  | case3 => exact Nat.le_refl _
  | case4 rest e after hread inner _ _ ih =>
      exact Nat.le_trans ih (Nat.le_succ_of_le (Nat.le_of_lt (Escape.length_lt_of_read hread)))
  | case5 rest _ _ hread ih =>
      refine Nat.le_trans ih ?_
      simp only [List.length_drop, List.length_cons]
      omega
  | case6 c rest _ _ _ inner ih => exact Nat.le_succ_of_le ih

/-- How a code point is written inside a string: the quote and the backslash behind a backslash,
U+0000 as the replacement character, other controls by number. -/
def form? (c : Char) : Option Text :=
  if c = '"' ∨ c = '\\' then some (Escape.byItself c)
  else if c = '\x00' then some [replacement]
  else if isControl c then some (Escape.byNumber c)
  else none

/-- The pieces of a string without its quotes. -/
def contentPieces (content : Text) : List Text := Escape.pieces form? [] content

theorem flatten_contentPieces (content : Text) :
    (contentPieces content).flatten = Escape.replace form? content :=
  Escape.flatten_pieces form? [] content

/-- The pieces of the string as it is written. -/
def pieces (content : Text) : List Text := ['"'] :: contentPieces content ++ [['"']]

end CssSyntax.Quoted
