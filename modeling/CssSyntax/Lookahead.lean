import CssSyntax.Text

/-!
The tests that decide what starts at a place from the next three code points alone.
-/

namespace CssSyntax

/-- Up to three code points that come next; `none` is the end of the text. -/
structure Lookahead where
  first : Option Char
  second : Option Char
  third : Option Char
  deriving DecidableEq, Repr

namespace Lookahead

/-- What comes next at the start of a text. -/
def ofText (text : Text) : Lookahead := ⟨text[0]?, text[1]?, text[2]?⟩

/-- What comes next when `c` is put in front. -/
def after (c : Char) (next : Lookahead) : Lookahead := ⟨some c, next.first, next.second⟩

theorem ofText_cons (c : Char) (rest : Text) : ofText (c :: rest) = (ofText rest).after c := by
  simp [ofText, after]

end Lookahead

/-- A backslash and the code point after it start an escape, unless that is a line feed. -/
def startsEscape (first second : Option Char) : Bool :=
  first == some '\\' && second != none && second != some '\n'

/-- Whether an identifier starts here: a name that begins neither with a digit nor with a
hyphen that a digit or nothing of a name follows. -/
def Lookahead.startsIdentifier (next : Lookahead) : Bool :=
  match next.first with
  | none => false
  | some '-' =>
      next.second == some '-' || next.second.any CodePoint.isNameStart ||
        startsEscape next.second next.third
  | some '\\' => startsEscape next.first next.second
  | some c => CodePoint.isNameStart c

/-- Whether a number starts here: a digit, after an optional sign and an optional point. -/
def Lookahead.startsNumber (next : Lookahead) : Bool :=
  match next.first with
  | some '+' | some '-' =>
      next.second.any Char.isDigit || (next.second == some '.' && next.third.any Char.isDigit)
  | some '.' => next.second.any Char.isDigit
  | first => first.any Char.isDigit

/-- Whether what comes next is part of a name, as after a number sign. -/
def Lookahead.continuesName (next : Lookahead) : Bool :=
  next.first.any CodePoint.isName || startsEscape next.first next.second

theorem Lookahead.continuesName_of_startsIdentifier {next : Lookahead} (h : next.startsIdentifier) :
    next.continuesName := by
  obtain ⟨first, second, third⟩ := next
  cases first with
  | none => simp [Lookahead.startsIdentifier] at h
  | some c =>
      by_cases hyphen : c = '-'
      · subst hyphen
        simp [Lookahead.continuesName, CodePoint.isName]
      · by_cases backslash : c = '\\'
        · subst backslash
          simp only [Lookahead.startsIdentifier] at h
          simp [Lookahead.continuesName, h]
        · have start : CodePoint.isNameStart c := by
            simpa [Lookahead.startsIdentifier, hyphen, backslash] using h
          simp [Lookahead.continuesName, CodePoint.isName, start]

end CssSyntax
