import CssSyntax.Lexeme
import CssSyntax.Reader.Span

/-!
Reading one lexeme from a source. No more is read than the decision needs: at most three code
points are looked at, apart from the blanks after `url(`, which belong to the url unless a quote
follows them.
-/

namespace CssSyntax.Reader

/-- A lexeme, and what the end of the input left open. -/
abbrev Taken := Lexeme × Option Unterminated

def plain (kind : Kind) (value : Text) : Taken := (⟨kind, value, none, false⟩, none)

def delim (c : Char) : Taken := plain .delim [c]

/-- Takes code points that have been looked at already. -/
def skip : Nat → Scan Unit
  | 0 => pure ()
  | n + 1 => do
      let _ ← next
      skip n

/-- Takes the sign of a numeral. -/
def sign : Scan Text := do
  let c ← next
  if c = some '+' ∨ c = some '-' then return c.toList
  else
    unread c
    return []

/-- Takes the point and the digits behind it, if both are there. -/
def fraction : Scan Text := do
  let ahead ← peek3
  if ahead.first = some '.' ∧ ahead.second.any Char.isDigit then
    let _ ← next
    let digits ← takeWhile Char.isDigit []
    return '.' :: digits
  else return []

/-- Takes an exponent, if one with a digit is there. -/
def exponent : Scan Text := do
  let ahead ← peek3
  if ahead.first = some 'e' ∨ ahead.first = some 'E' then
    if (ahead.second = some '+' ∨ ahead.second = some '-') ∧ ahead.third.any Char.isDigit then
      skip 2
      let digits ← takeWhile Char.isDigit []
      return ahead.first.toList ++ ahead.second.toList ++ digits
    else if ahead.second.any Char.isDigit then
      skip 1
      let digits ← takeWhile Char.isDigit []
      return ahead.first.toList ++ digits
    else return []
  else return []

/-- The value of a literal that has been taken as a numeral. -/
def literalValue (literal : Text) : Scan Double :=
  match Numeral.valueOf? (Numeral.canonical literal) with
  | some value => return value
  | none => throw (.defect (.noNumeral literal))

/-- Takes a number, percentage or dimension. -/
def numeric : Scan Taken := do
  let sign ← sign
  let whole ← takeWhile Char.isDigit []
  let fraction ← fraction
  let exponent ← exponent
  let literal := sign ++ whole ++ fraction ++ exponent
  let value ← literalValue literal
  let payload (unit : Option Text) : Numeric :=
    { value := value, isInteger := fraction.isEmpty && exponent.isEmpty,
      hasSign := !sign.isEmpty, unit := unit }
  let ahead ← peek3
  if ahead.first = some '%' then
    skip 1
    return (⟨.percentage, literal ++ ['%'], some (payload none), false⟩, none)
  else if ahead.startsIdentifier then
    let unit ← name []
    return (⟨.dimension, literal ++ unit, some (payload unit), false⟩, none)
  else return (⟨.number, literal, some (payload none), false⟩, none)

/-- Gives back code points in the order that makes them come again as they were. -/
def unreadAll : Text → Scan Unit
  | [] => pure ()
  | c :: rest => do
      unreadAll rest
      unread (some c)

/-- Takes an identifier, a function or a url. -/
def identLike : Scan Taken := do
  let name ← name []
  let c ← next
  if c ≠ some '(' then
    unread c
    return plain .ident name
  else if isUrlName name then
    let blanks ← takeWhile CodePoint.isWhitespace []
    let quote ← peek
    if quote = some '"' ∨ quote = some '\'' then
      unreadAll blanks
      return plain .function name
    else
      let (content, good) ← url []
      return plain (if good then .url else .badUrl) content
  else return plain .function name

/-- Takes the lexeme that begins with a code point already taken. -/
def lexemeFrom (c : Char) : Scan Taken := do
  match c with
  | '/' =>
      let star ← next
      if star = some '*' then
        let (content, closed) ← comment false []
        return (⟨.comment, content, none, false⟩, if closed then none else some .comment)
      else
        unread star
        return delim c
  | '#' =>
      let ahead ← peek3
      if ahead.continuesName then
        let name ← name []
        return (⟨.hash, name, none, ahead.startsIdentifier⟩, none)
      else return delim c
  | '+' =>
      let ahead ← peek3
      if (ahead.after c).startsNumber then
        unread (some c)
        numeric
      else return delim c
  | '-' =>
      let ahead ← peek3
      if (ahead.after c).startsNumber then
        unread (some c)
        numeric
      else if ahead.first = some '-' ∧ ahead.second = some '>' then
        skip 2
        return plain .cdc cdcMark
      else if (ahead.after c).startsIdentifier then
        unread (some c)
        identLike
      else return delim c
  | '.' =>
      let digit ← peek
      if digit.any Char.isDigit then
        unread (some c)
        numeric
      else return delim c
  | '<' =>
      let ahead ← peek3
      if ahead = ⟨some '!', some '-', some '-'⟩ then
        skip 3
        return plain .cdo cdoMark
      else return delim c
  | '@' =>
      let ahead ← peek3
      if ahead.startsIdentifier then
        let name ← name []
        return plain .atKeyword name
      else return delim c
  | '\\' =>
      let ahead ← peek
      if startsEscape (some c) ahead then
        unread (some c)
        identLike
      else return delim c
  | _ =>
      if CodePoint.isWhitespace c then
        let value ← takeWhile CodePoint.isWhitespace [c]
        return plain .whitespace value
      else if c = '"' ∨ c = '\'' then
        let (content, ending) ← quoted c []
        return (⟨if ending = .lineFeed then .badString else .string, content, none, false⟩,
          if ending = .endOfInput then some .string else none)
      else if c.isDigit then
        unread (some c)
        numeric
      else if CodePoint.isNameStart c then
        unread (some c)
        identLike
      else match Kind.ofSymbol? c with
        | some kind => return plain kind [c]
        | none => return delim c

/-- Takes the next lexeme. -/
def lexeme : Scan Taken := do
  match ← next with
  | none => return (Lexeme.endOfInput, none)
  | some c => lexemeFrom c

end CssSyntax.Reader
