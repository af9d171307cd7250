import CssSyntax.Escape
import CssSyntax.Quoted
import CssSyntax.Reader
import CssSyntax.Url

/-!
The stretches of a token that may be of any length: runs of one class, escapes, names, and the
insides of comments, strings and urls. Each collects its value last code point first, and ends
because every step takes something of what the reader has left.
-/

namespace CssSyntax.Reader

open CodePoint

/-- Takes code points of a class, up to the first other one. -/
def takeWhile (p : Char → Bool) (found : Text) : Scan Text := fun r =>
  match _h : next r with
  | .error stop after => .error stop after
  | .ok none after => .ok found.reverse after
  | .ok (some c) after =>
      if p c then takeWhile p (c :: found) after
      else (do unread (some c); return found.reverse : Scan Text) after
termination_by r => r.remaining
decreasing_by exact remaining_lt_of_next _h

/-- Takes up to `room` more hexadecimal digits. One code point more is looked at in any case, and
only a blank that ends a shorter run is kept. -/
def hexDigits : Nat → Nat → Scan Nat
  | 0, value => do
      let c ← next
      unread c
      return value
  | room + 1, value => do
      let c ← next
      match c.bind hexValue? with
      | some d => hexDigits room (value * 16 + d)
      | none =>
          if c.any isWhitespace then return value
          else
            unread c
            return value

/-- Takes the escape after a backslash. -/
def escape : Scan Char := do
  match ← next with
  | none => throw (.defect .noEscape)
  | some c =>
      if c = '\n' then throw (.defect .noEscape)
      else match hexValue? c with
        | some d => return ofNumber (← hexDigits 5 d)
        | none => return c

/-- Takes the escape after a backslash, if there is one. -/
def escape? : Scan (Option Char) := do
  if startsEscape (some '\\') (← peek) then
    let c ← escape
    return some c
  else return none

/-- Takes what a backslash begins inside a string. At the end of the input that is nothing, and
before a line feed it is the line feed, which counts for nothing. -/
def stringEscape : Scan (Option Char) := do
  match ← peek with
  | none => return none
  | some c =>
      if c = '\n' then
        let _ ← next
        return none
      else
        let c ← escape
        return some c

/-- Takes what a backslash begins in a bad url. Before a line feed it stands for itself. -/
def remnantEscape : Scan (Option Char) := do
  match ← peek with
  | none => return none
  | some c =>
      if c = '\n' then return some '\\'
      else
        let c ← escape
        return some c

theorem remaining_le_of_hexDigits {room value d : Nat} {r after : Reader}
    (h : hexDigits room value r = .ok d after) : after.remaining ≤ r.remaining := by
  induction room generalizing value r with
  | zero =>
      rw [hexDigits] at h
      obtain ⟨c, middle, hnext, h⟩ := bind_eq_ok h
      obtain ⟨_, last, hunread, h⟩ := bind_eq_ok h
      cases h
      exact remaining_le_of_unread hnext hunread
  | succ room ih =>
      rw [hexDigits] at h
      obtain ⟨c, middle, hnext, h⟩ := bind_eq_ok h
      have := remaining_le_of_next hnext
      cases hc : c.bind hexValue? with
      | some d =>
          simp only [hc] at h
          exact Nat.le_trans (ih h) this
      | none =>
          simp only [hc] at h
          split at h
          · cases h
            exact this
          · obtain ⟨_, last, hunread, h⟩ := bind_eq_ok h
            cases h
            exact remaining_le_of_unread hnext hunread

theorem remaining_le_of_escape {r after : Reader} {e : Char} (h : escape r = .ok e after) :
    after.remaining ≤ r.remaining := by
  obtain ⟨c, middle, hnext, h⟩ := bind_eq_ok h
  have := remaining_le_of_next hnext
  cases c with
  | none => cases h
  | some c =>
      by_cases feed : c = '\n'
      · rw [feed] at h
        cases h
      · cases hd : hexValue? c with
        | some d =>
            simp only [feed, ite_false, hd] at h
            obtain ⟨value, last, hdigits, h⟩ := bind_eq_ok h
            cases h
            exact Nat.le_trans (remaining_le_of_hexDigits hdigits) this
        | none =>
            simp only [feed, ite_false, hd] at h
            cases h
            exact this

theorem remaining_le_of_escape? {r after : Reader} {e : Option Char}
    (h : escape? r = .ok e after) : after.remaining ≤ r.remaining := by
  obtain ⟨c, middle, hpeek, h⟩ := bind_eq_ok h
  have := remaining_le_of_peek hpeek
  split at h
  · obtain ⟨c, last, hescape, h⟩ := bind_eq_ok h
    cases h
    exact Nat.le_trans (remaining_le_of_escape hescape) this
  · cases h
    exact this

theorem remaining_le_of_stringEscape {r after : Reader} {e : Option Char}
    (h : stringEscape r = .ok e after) : after.remaining ≤ r.remaining := by
  obtain ⟨c, middle, hpeek, h⟩ := bind_eq_ok h
  have := remaining_le_of_peek hpeek
  cases c with
  | none =>
      cases h
      exact this
  | some c =>
      simp only at h
      split at h
      · obtain ⟨_, last, hnext, h⟩ := bind_eq_ok h
        cases h
        exact Nat.le_trans (remaining_le_of_next hnext) this
      · obtain ⟨_, last, hescape, h⟩ := bind_eq_ok h
        cases h
        exact Nat.le_trans (remaining_le_of_escape hescape) this

theorem remaining_le_of_remnantEscape {r after : Reader} {e : Option Char}
    (h : remnantEscape r = .ok e after) : after.remaining ≤ r.remaining := by
  obtain ⟨c, middle, hpeek, h⟩ := bind_eq_ok h
  have := remaining_le_of_peek hpeek
  cases c with
  | none =>
      cases h
      exact this
  | some c =>
      simp only at h
      split at h
      · cases h
        exact this
      · obtain ⟨_, last, hescape, h⟩ := bind_eq_ok h
        cases h
        exact Nat.le_trans (remaining_le_of_escape hescape) this

/-- Takes a name, which may be empty. -/
def name (found : Text) : Scan Text := fun r =>
  match _h : next r with
  | .error stop after => .error stop after
  | .ok none after => .ok found.reverse after
  | .ok (some c) after =>
      if isName c then name (c :: found) after
      else if c = '\\' then
        match _he : escape? after with
        | .error stop later => .error stop later
        | .ok (some e) later => name (e :: found) later
        | .ok none later => (do unread (some c); return found.reverse : Scan Text) later
      else (do unread (some c); return found.reverse : Scan Text) after
termination_by r => r.remaining
decreasing_by
  · exact remaining_lt_of_next _h
  · exact Nat.lt_of_le_of_lt (remaining_le_of_escape? _he) (remaining_lt_of_next _h)

/-- Takes the inside of a comment and its closing mark, and tells whether the mark was there.
`star` says that the code point before was a star. -/
def comment (star : Bool) (found : Text) : Scan (Text × Bool) := fun r =>
  match _h : next r with
  | .error stop after => .error stop after
  | .ok none after => .ok (found.reverse, false) after
  | .ok (some c) after =>
      if c = '/' ∧ star then .ok ((found.drop 1).reverse, true) after
      else comment (c == '*') (c :: found) after
termination_by r => r.remaining
decreasing_by exact remaining_lt_of_next _h

/-- Takes the inside of a string and its closing quote. A line feed that breaks it off is given
back. -/
def quoted (quote : Char) (found : Text) : Scan (Text × Quoted.Ending) := fun r =>
  match _h : next r with
  | .error stop after => .error stop after
  | .ok none after => .ok (found.reverse, .endOfInput) after
  | .ok (some c) after =>
      if c = quote then .ok (found.reverse, .quote) after
      else if c = '\n' then
        (do unread (some c); return (found.reverse, .lineFeed) :
          Scan (Text × Quoted.Ending)) after
      else if c = '\\' then
        match _he : stringEscape after with
        | .error stop later => .error stop later
        | .ok e later => quoted quote (e.toList ++ found) later
      else quoted quote (c :: found) after
termination_by r => r.remaining
decreasing_by
  · exact Nat.lt_of_le_of_lt (remaining_le_of_stringEscape _he) (remaining_lt_of_next _h)
  · exact remaining_lt_of_next _h

/-- Takes what is left of a bad url and its closing parenthesis. -/
def remnants (found : Text) : Scan Text := fun r =>
  match _h : next r with
  | .error stop after => .error stop after
  | .ok none after => .ok found.reverse after
  | .ok (some c) after =>
      if c = ')' then .ok found.reverse after
      else if c = '\\' then
        match _he : remnantEscape after with
        | .error stop later => .error stop later
        | .ok e later => remnants (e.toList ++ found) later
      else remnants (c :: found) after
termination_by r => r.remaining
decreasing_by
  · exact Nat.lt_of_le_of_lt (remaining_le_of_remnantEscape _he) (remaining_lt_of_next _h)
  · exact remaining_lt_of_next _h

/-- Takes the blanks that may end a url, and the parenthesis behind them or else the rest of a bad
url. -/
def endOfUrl (blank : Char) (found : Text) : Scan (Text × Bool) := do
  let blanks ← takeWhile isWhitespace [blank]
  let c ← next
  if c = some ')' then return (found.reverse, true)
  else
    unread c
    let content ← remnants (blanks.reverse ++ found)
    return (content, false)

/-- Takes the rest of a url that has turned out bad. -/
def spoiled (found : Text) : Scan (Text × Bool) := do
  let content ← remnants found
  return (content, false)

/-- Takes an unquoted url and its closing parenthesis, and tells whether it is one. -/
def url (found : Text) : Scan (Text × Bool) := fun r =>
  match _h : next r with
  | .error stop after => .error stop after
  | .ok none after => .ok (found.reverse, true) after
  | .ok (some c) after =>
      if isWhitespace c then endOfUrl c found after
      else if c = ')' then .ok (found.reverse, true) after
      else if Url.spoils c then spoiled (c :: found) after
      else if c = '\\' then
        match _he : escape? after with
        | .error stop later => .error stop later
        | .ok (some e) later => url (e :: found) later
        | .ok none later => (do unread (some c); spoiled found : Scan (Text × Bool)) later
      else url (c :: found) after
termination_by r => r.remaining
decreasing_by
  · exact Nat.lt_of_le_of_lt (remaining_le_of_escape? _he) (remaining_lt_of_next _h)
  · exact remaining_lt_of_next _h

end CssSyntax.Reader
