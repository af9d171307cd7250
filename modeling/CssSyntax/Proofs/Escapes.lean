import CssSyntax.Proofs.Glyphs
import CssSyntax.Proofs.Spans

/-!
Reading an escape. A code point that is no hexadecimal digit stands for itself. One to six digits
stand for the code point that they number, and the blank behind fewer than six is read with them, so
a code point that is spelled in full is read back in front of any text.
-/

namespace CssSyntax

open CodePoint

/-- Only zero, surrogates and numbers past the last code point number none. -/
theorem CodePoint.ofNumber_cases (n : Nat) :
    if n = 0 ∨ 0xD800 ≤ n ∧ n ≤ 0xDFFF ∨ 0x10FFFF < n then ofNumber n = replacement
    else (ofNumber n).toNat = n := by
  split
  · next unnumbered =>
      refine if_neg fun ⟨nonzero, valid⟩ => ?_
      rcases valid with below | ⟨above, last⟩ <;> omega
  · next numbered =>
      have valid : n.isValidChar := by
        by_cases below : n < 0xD800
        · exact .inl below
        · exact .inr (by omega)
      exact toNat_ofNumber (by omega) valid

theorem CodePoint.toNat_ne_zero {c : Char} (notNul : c ≠ '\x00') : c.toNat ≠ 0 :=
  fun zero => notNul (Char.toNat_inj.mp zero)

namespace Escape

theorem leadingDigits_ne_nil {text : Text} (hex : text.head?.any isHex) :
    leadingDigits text ≠ [] := by
  cases text with
  | nil => cases hex
  | cons c rest =>
      have hex : isHex c := hex
      simp [leadingDigits, hex]

theorem drop_leadingBlank (text : Text) :
    text.drop (leadingBlank text).length =
      if text.head?.any isWhitespace then text.tail else text := by
  cases text with
  | nil => rfl
  | cons c rest => by_cases blank : isWhitespace c <;> simp [leadingBlank, blank]

/-- Leading digits are read for the code point that they number, and a blank ends fewer than six. -/
theorem read_of_hex {text : Text} (hex : text.head?.any isHex) :
    let run := leadingDigits text
    let behind := text.drop run.length
    read text = some (ofNumber (hexNumber 0 run),
      if run.length < 6 ∧ behind.head?.any isWhitespace then behind.tail else behind) := by
  intro run behind
  have found := (digits_leadingDigits text).read_eq (leadingDigits_ne_nil hex)
  rw [leadingDigits_append_drop, drop_leadingBlank] at found
  rw [found]
  by_cases few : run.length < 6
  · simp [run, behind, few]
  · simp [run, behind, few]

/-- A spelling of a number in digits, with the blank behind it that ends fewer than six. -/
def closed (run : Text) : Text := if run.length < 6 then run ++ [' '] else run

/-- A code point that is spelled in full is read back, whatever follows. -/
theorem read_closed {c : Char} (notNul : c ≠ '\x00') {run : Text} (hex : ∀ d ∈ run, isHex d)
    (short : run.length ≤ 6) (number : hexNumber 0 run = c.toNat) (rest : Text) :
    read (closed run ++ rest) = some (c, rest) := by
  have nonzero := toNat_ne_zero notNul
  have nonempty : run ≠ [] := by
    rintro rfl
    exact nonzero number.symm
  rw [← ofNumber_toNat nonzero, ← number, closed]
  by_cases few : run.length < 6
  · rw [if_pos few, List.append_assoc]
    exact read_digits hex nonempty (Nat.le_of_lt_succ few) rest
  · have full : run.length + 0 = 6 := Nat.le_antisymm short (Nat.le_of_not_lt few)
    rw [if_neg few, read_run hex nonempty full]
    rfl

end Escape

namespace Reader

open Escape (isHex hexNumber leadingDigits closed)

theorem escape_eq_ok {r : Reader} (noFailures : r.input.source.failures = []) {e : Char}
    {rest : Text} (h : Escape.read r.text = some (e, rest)) :
    ∃ after, escape r = .ok e after ∧ after.text = rest ∧ after.input.source.failures = [] := by
  obtain ⟨after, done, left, moves⟩ := (yields_escape h).ok noFailures
  exact ⟨after, done, left, moves.failures.trans noFailures⟩

/-- Behind a backslash, `escape` takes the first code point if it is no hexadecimal digit. Otherwise
the leading digits, six at most, stand for the code point that they number, or for U+FFFD if they
number NUL or none, and a blank behind fewer than six goes with them. So a code point other than NUL
that is spelled in one to five digits and a blank, or in six digits, is read in front of any text,
and the text is left. -/
theorem escape_reads_spelling {r : Reader} (noFailures : r.input.source.failures = []) :
    (r.text ≠ [] → r.text.head? ≠ some '\n' →
      ∃ e after, escape r = .ok e after ∧ after.input.source.failures = [] ∧
        (r.text.head?.any isHex = false → r.text = e :: after.text) ∧
        (r.text.head?.any isHex = true →
          let digits := leadingDigits r.text
          let number := hexNumber 0 digits
          let behind := r.text.drop digits.length
          (if number = 0 ∨ 0xD800 ≤ number ∧ number ≤ 0xDFFF ∨ 0x10FFFF < number
            then e = replacement else e.toNat = number) ∧
          after.text =
            if digits.length < 6 ∧ behind.head?.any isWhitespace then behind.tail else behind)) ∧
    ∀ (c : Char) (digits rest : Text), c ≠ '\x00' → (∀ d ∈ digits, isHex d) → digits.length ≤ 6 →
      hexNumber 0 digits = c.toNat →
      r.text = closed digits ++ rest →
      ∃ after, escape r = .ok c after ∧ after.text = rest ∧
        after.input.source.failures = [] := by
  refine ⟨?_, ?_⟩
  · intro nonempty noFeed
    by_cases hex : r.text.head?.any isHex
    · obtain ⟨after, done, left, noFailures⟩ := escape_eq_ok noFailures (Escape.read_of_hex hex)
      refine ⟨_, after, done, noFailures, fun notHex => absurd hex (by simp [notHex]), ?_⟩
      intro _ digits number behind
      exact ⟨ofNumber_cases number, left⟩
    · obtain ⟨c, rest, split⟩ := List.exists_cons_of_ne_nil nonempty
      rw [split] at noFeed hex
      have plain : hexValue? c = none := by simpa [isHex] using hex
      have read : Escape.read r.text = some (c, rest) := by
        rw [split]
        exact Escape.read_byItself plain (by simpa using noFeed) rest
      obtain ⟨after, done, left, noFailures⟩ := escape_eq_ok noFailures read
      rw [split]
      exact ⟨c, after, done, noFailures, fun _ => by rw [left], fun digit => absurd digit hex⟩
  · intro c digits rest notNul hex short number split
    apply escape_eq_ok noFailures
    rw [split]
    exact Escape.read_closed notNul hex short number rest

/-- Six digits of either case number the largest code point, and the blank behind them is left. -/
theorem escape_reads_spelling_largest :
    let r := ofSource (.ofText ['1', '0', 'f', 'F', 'F', 'f', ' '])
    ∃ after, escape r = .ok (Char.ofNat 0x10FFFF) after ∧ after.text = [' '] ∧
      after.input.source.failures = [] := by
  intro r
  have noFailures : r.input.source.failures = [] := Source.failures_units _
  have text : r.text = ['1', '0', 'f', 'F', 'F', 'f', ' '] :=
    Normalizer.text_ofSource_ofText (by simp)
  apply (escape_reads_spelling noFailures).2 _ ['1', '0', 'f', 'F', 'F', 'f']
  · decide
  · exact List.all_eq_true.mp rfl
  · decide
  · decide
  · exact text

end Reader

end CssSyntax
