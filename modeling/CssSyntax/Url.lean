import CssSyntax.Escape

/-!
Urls without quotes. Blanks may stand around the url; a quote, an opening parenthesis, a control
or a blank inside it makes it a bad url, which then runs to the next closing parenthesis.
-/

namespace CssSyntax.Url

open CodePoint

/-- Whether a code point spoils an unquoted url. -/
def spoils (c : Char) : Bool := c == '"' || c == '\'' || c == '(' || isNonPrintable c

/-- Reads what is left of a bad url, through its closing parenthesis. A backslash at the end of
the text is dropped, and one before a line feed is kept. -/
def readRemnants (text : Text) : Text × Text :=
  match text with
  | [] => ([], [])
  | c :: rest =>
      if c = ')' then ([], rest)
      else if c = '\\' then
        match _h : Escape.read rest with
        | some (e, after) =>
            let inner := readRemnants after
            (e :: inner.1, inner.2)
        | none =>
            if rest = [] then ([], [])
            else
              let inner := readRemnants rest
              ('\\' :: inner.1, inner.2)
      else
        let inner := readRemnants rest
        (c :: inner.1, inner.2)
termination_by text.length
decreasing_by
  · exact Nat.lt_succ_of_lt (Escape.length_lt_of_read _h)
  · exact Nat.lt_succ_self _
  · exact Nat.lt_succ_self _

theorem length_readRemnants_le (text : Text) :
    (readRemnants text).2.length ≤ text.length := by
  fun_induction readRemnants text with
  | case1 => exact Nat.le_refl _
  | case2 => exact Nat.le_succ _
  | case3 rest e after h inner _ ih =>
      exact Nat.le_trans ih (Nat.le_succ_of_le (Nat.le_of_lt (Escape.length_lt_of_read h)))
  | case4 => exact Nat.zero_le _
  | case5 rest _ _ _ inner ih => exact Nat.le_succ_of_le ih
  | case6 c rest _ _ inner ih => exact Nat.le_succ_of_le ih

/-- The inside of a url, read from behind the opening parenthesis and the blanks after it. -/
structure Reading where
  content : Text
  /-- Whether it is a url at all, and not a bad one. -/
  good : Bool
  rest : Text

/-- Gives up on a url whose content so far is `content`. -/
def spoiled (content text : Text) : Reading :=
  let remnants := readRemnants text
  ⟨content ++ remnants.1, false, remnants.2⟩

/-- Reads a url. Blanks end it; they are no part of it if its parenthesis closes behind them, and
spoil it otherwise. -/
def read (text : Text) : Reading :=
  match text with
  | [] => ⟨[], true, []⟩
  | c :: rest =>
      if c = ')' then ⟨[], true, rest⟩
      else if isWhitespace c then
        match rest.dropWhile isWhitespace with
        | ')' :: after => ⟨[], true, after⟩
        | after => spoiled (c :: rest.takeWhile isWhitespace) after
      else if spoils c then spoiled [c] rest
      else if c = '\\' then
        match _h : Escape.read rest with
        | some (e, after) =>
            let inner := read after
            { inner with content := e :: inner.content }
        | none => spoiled [] text
      else
        let inner := read rest
        { inner with content := c :: inner.content }
termination_by text.length
decreasing_by
  · exact Nat.lt_succ_of_lt (Escape.length_lt_of_read _h)
  · exact Nat.lt_succ_self _

theorem length_spoiled_le (content text : Text) :
    (spoiled content text).rest.length ≤ text.length :=
  length_readRemnants_le text

theorem length_read_le (text : Text) : (read text).rest.length ≤ text.length := by
  fun_induction read text with
  | case1 => exact Nat.le_refl _
  | case2 => exact Nat.le_succ _
  | case3 c rest _ _ after hdrop =>
      have := (List.dropWhile_sublist isWhitespace (l := rest)).length_le
      simp_all
      omega
  | case4 c rest _ _ after =>
      have := (List.dropWhile_sublist isWhitespace (l := rest)).length_le
      have := length_spoiled_le (c :: rest.takeWhile isWhitespace) (rest.dropWhile isWhitespace)
      simp_all
      omega
  | case5 c rest => exact Nat.le_succ_of_le (length_spoiled_le [c] rest)
  | case6 rest e after hread inner _ _ _ ih =>
      exact Nat.le_trans ih (Nat.le_succ_of_le (Nat.le_of_lt (Escape.length_lt_of_read hread)))
  | case7 rest => exact length_spoiled_le [] _
  | case8 c rest _ _ _ _ inner ih => exact Nat.le_succ_of_le ih

/-- How a code point is written in an unquoted url: blanks and controls by number; quotes,
parentheses and the backslash behind a backslash. -/
def form? (c : Char) : Option Text :=
  if isControl c || c == ' ' then some (Escape.byNumber c)
  else if c == '(' || c == ')' || c == '"' || c == '\'' || c == '\\' then some (Escape.byItself c)
  else none

/-- The pieces of the url between its parentheses. -/
def contentPieces (content : Text) : List Text := Escape.pieces form? [] content

theorem flatten_contentPieces (content : Text) :
    (contentPieces content).flatten = Escape.replace form? content :=
  Escape.flatten_pieces form? [] content

end CssSyntax.Url
