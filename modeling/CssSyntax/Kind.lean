import CssSyntax.Text.IgnoreCase

/-!
The kinds of token and their names, as the CSS syntax spells them.
-/

namespace CssSyntax

inductive Kind where
  | comment
  | ident
  | function
  | atKeyword
  | hash
  | string
  | badString
  | url
  | badUrl
  | delim
  | number
  | percentage
  | dimension
  | whitespace
  | cdo
  | cdc
  | colon
  | semicolon
  | comma
  | openSquare
  | closeSquare
  | openParen
  | closeParen
  | openBrace
  | closeBrace
  | endOfInput
  deriving DecidableEq, Repr

namespace Kind

def name : Kind → String
  | comment => "comment"
  | ident => "ident"
  | function => "function"
  | atKeyword => "at-keyword"
  | hash => "hash"
  | string => "string"
  | badString => "bad-string"
  | url => "url"
  | badUrl => "bad-url"
  | delim => "delim"
  | number => "number"
  | percentage => "percentage"
  | dimension => "dimension"
  | whitespace => "whitespace"
  | cdo => "cdo"
  | cdc => "cdc"
  | colon => "colon"
  | semicolon => "semicolon"
  | comma => "comma"
  | openSquare => "["
  | closeSquare => "]"
  | openParen => "("
  | closeParen => ")"
  | openBrace => "\x7b"
  | closeBrace => "\x7d"
  | endOfInput => "end-of-input"

def all : List Kind :=
  [comment, ident, function, atKeyword, hash, string, badString, url, badUrl, delim, number,
    percentage, dimension, whitespace, cdo, cdc, colon, semicolon, comma, openSquare, closeSquare,
    openParen, closeParen, openBrace, closeBrace, endOfInput]

/-- The table that kinds are looked up in by name. -/
def keywords : Keywords Kind :=
  [("comment".toList, comment),
    ("ident".toList, ident),
    ("function".toList, function),
    ("at-keyword".toList, atKeyword),
    ("hash".toList, hash),
    ("string".toList, string),
    ("bad-string".toList, badString),
    ("url".toList, url),
    ("bad-url".toList, badUrl),
    ("delim".toList, delim),
    ("number".toList, number),
    ("percentage".toList, percentage),
    ("dimension".toList, dimension),
    ("whitespace".toList, whitespace),
    ("cdo".toList, cdo),
    ("cdc".toList, cdc),
    ("colon".toList, colon),
    ("semicolon".toList, semicolon),
    ("comma".toList, comma),
    ("[".toList, openSquare),
    ("]".toList, closeSquare),
    ("(".toList, openParen),
    (")".toList, closeParen),
    ("\x7b".toList, openBrace),
    ("\x7d".toList, closeBrace),
    ("end-of-input".toList, endOfInput)]

/-- The kind with a name, whatever the case of its letters. -/
def ofName? (name : Text) : Option Kind := keywords.find? name

/-- Whether tokens of this kind are the remains of an error. -/
def isParseError (kind : Kind) : Bool := kind == badString || kind == badUrl

/-- The kinds that consist of one fixed code point. -/
def ofSymbol? : Char → Option Kind
  | ':' => some colon
  | ';' => some semicolon
  | ',' => some comma
  | '[' => some openSquare
  | ']' => some closeSquare
  | '(' => some openParen
  | ')' => some closeParen
  | '\x7b' => some openBrace
  | '\x7d' => some closeBrace
  | _ => none

theorem mem_all (kind : Kind) : kind ∈ all := by
  cases kind <;> decide

end Kind

end CssSyntax
