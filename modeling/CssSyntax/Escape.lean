import CssSyntax.Text

/-!
Escapes: a backslash and either one to six hexadecimal digits or one other code point. A blank
after fewer than six digits ends the escape and belongs to it. Both directions are here: reading
an escape, and cutting a text into the pieces in which it is written with escapes.
-/

namespace CssSyntax.Escape

open CodePoint

/-- Takes up to `room` more digits after those that make up `value`, and the blank that ends
them if there was room for another. -/
def digits : Nat → Nat → Text → Nat × Text
  | 0, value, text => (value, text)
  | _ + 1, value, [] => (value, [])
  | room + 1, value, c :: rest =>
      match hexValue? c with
      | some d => digits room (value * 16 + d) rest
      | none => (value, if isWhitespace c then rest else c :: rest)

/-- Reads the escape after a backslash: the code point it stands for and the text behind it. At
the end of the text and before a line feed there is none. -/
def read : Text → Option (Char × Text)
  | [] => none
  | c :: rest =>
      if c = '\n' then none
      else match hexValue? c with
        | some d => let number := digits 5 d rest; some (ofNumber number.1, number.2)
        | none => some (c, rest)

theorem length_digits_le (room value : Nat) (text : Text) :
    (digits room value text).2.length ≤ text.length := by
  fun_induction digits room value text with
  | case1 => exact Nat.le_refl _
  | case2 => exact Nat.le_refl _
  | case3 room value c rest d h ih => exact Nat.le_succ_of_le ih
  | case4 room value c rest h =>
      split
      · exact Nat.le_succ _
      · exact Nat.le_refl _

theorem length_lt_of_read {text rest : Text} {c : Char} (h : read text = some (c, rest)) :
    rest.length < text.length := by
  cases text with
  | nil => simp [read] at h
  | cons first tail =>
      simp only [read] at h
      split at h
      · cases h
      · split at h
        · next d _ =>
            have := length_digits_le 5 d tail
            cases h
            exact Nat.lt_succ_of_le this
        · cases h
          exact Nat.lt_succ_self _

/-- An escape is missing exactly at the end of the text and before a line feed. -/
theorem read_eq_none_iff {text : Text} : read text = none ↔ text = [] ∨ text.head? = some '\n' := by
  cases text with
  | nil => simp [read]
  | cons c rest =>
      by_cases h : c = '\n'
      · simp [read, h]
      · cases hd : hexValue? c <;> simp [read, h, hd]

/-- The escape that names a code point by number, with the blank that ends it. -/
def byNumber (c : Char) : Text := '\\' :: Nat.toDigits 16 c.toNat ++ [' ']

/-- The escape that repeats a code point. -/
def byItself (c : Char) : Text := ['\\', c]

/-- A text with each code point that has a written form replaced by it. -/
def replace (form? : Char → Option Text) (text : Text) : Text :=
  text.flatMap fun c => (form? c).getD [c]

/-- The pieces in which `replace` is written: runs of code points that stand for themselves,
kept whole, and the written forms between them. `run` is the run so far, last code point
first. -/
def pieces (form? : Char → Option Text) (run : Text) : Text → List Text
  | [] => [run.reverse]
  | c :: rest =>
      match form? c with
      | none => pieces form? (c :: run) rest
      | some form => run.reverse :: form :: pieces form? [] rest

@[simp] theorem flatten_pieces (form? : Char → Option Text) (run text : Text) :
    (pieces form? run text).flatten = run.reverse ++ replace form? text := by
  induction text generalizing run with
  | nil => simp [pieces, replace]
  | cons c rest ih =>
      cases h : form? c with
      | none => simp [pieces, replace, h, ih]
      | some form => simp [pieces, replace, h, ih]

end CssSyntax.Escape
