import CssSyntax.Lookahead
import CssSyntax.Normalizer
import CssSyntax.Position

/-!
Reading a source code point by code point, with the possibility to give code points back. A failure
of the source stops a reading where it happens: what was taken so far stays taken, and counts in
the positions of later tokens.
-/

namespace CssSyntax

/-- Misuses of a reader. The scanning rules are such that none of them ever happens. -/
inductive Defect where
  /-- A code point was given back that was not the last one taken. -/
  | notTaken (c : Char)
  /-- An escape was read where there is none. -/
  | noEscape
  /-- A literal was taken for a numeral that is none. -/
  | noNumeral (literal : Text)
  deriving DecidableEq, Repr

/-- Why a scan stopped before its result. -/
inductive Stop where
  | failure (failure : Failure)
  | defect (defect : Defect)
  deriving DecidableEq, Repr

/-- A place in a source. The text taken since the last token began is kept, last code point first;
text given back is read again before the source is. -/
structure Reader where
  input : Normalizer
  ahead : Text := []
  taken : Text := []
  /-- Where the text taken begins. -/
  position : Position := .start

/-- A step of reading that gives an `α` or stops, and moves the reader in either case. -/
abbrev Scan (α : Type) := EStateM Stop Reader α

namespace Reader

def ofSource (source : Source) : Reader := { input := .ofSource source }

/-- An upper bound on the code points still to come. -/
def remaining (r : Reader) : Nat := r.ahead.length + r.input.remaining

/-- Puts the text taken so far behind the reader, where the next token begins. -/
def begin (r : Reader) : Reader :=
  { r with taken := [], position := r.position.after r.taken.reverse }

/-- Takes the next code point; `none` is the end of the input. -/
def next : Scan (Option Char) := fun r =>
  match r.ahead with
  | c :: ahead => .ok (some c) { r with ahead := ahead, taken := c :: r.taken }
  | [] =>
      match r.input.read with
      | .ok (some c) input => .ok (some c) { r with input := input, taken := c :: r.taken }
      | .ok none input => .ok none { r with input := input }
      | .error f input => .error (.failure f) { r with input := input }

/-- Gives back what `next` has just taken. -/
def unread : Option Char → Scan Unit
  | none => pure ()
  | some c => fun r =>
      match r.taken with
      | last :: taken =>
          if last = c then .ok () { r with ahead := c :: r.ahead, taken := taken }
          else .error (.defect (.notTaken c)) r
      | [] => .error (.defect (.notTaken c)) r

/-- Looks at the next code point. -/
def peek : Scan (Option Char) := do
  let c ← next
  unread c
  return c

/-- Looks at the next three code points. All three are taken before any is given back, so a
failure among them leaves the ones before it taken. -/
def peek3 : Scan Lookahead := do
  let first ← next
  let second ← next
  let third ← next
  unread third
  unread second
  unread first
  return ⟨first, second, third⟩

theorem remaining_lt_of_next {r after : Reader} {c : Char} (h : next r = .ok (some c) after) :
    after.remaining < r.remaining := by
  obtain ⟨input, ahead, taken, position⟩ := r
  cases ahead with
  | cons first ahead =>
      simp only [next] at h
      cases h
      simp [remaining]
  | nil =>
      simp only [next] at h
      split at h
      · next c' input' hread =>
          have := Normalizer.remaining_lt_of_ok hread
          cases h
          simpa [remaining] using this
      · cases h
      · cases h

theorem remaining_le_of_next {r after : Reader} {c : Option Char} (h : next r = .ok c after) :
    after.remaining ≤ r.remaining := by
  cases c with
  | some c => exact Nat.le_of_lt (remaining_lt_of_next h)
  | none =>
      obtain ⟨input, ahead, taken, position⟩ := r
      cases ahead with
      | cons first ahead => cases h
      | nil =>
          simp only [next] at h
          split at h
          · cases h
          · next input' hread =>
              have := Normalizer.remaining_le_of_end hread
              cases h
              simpa [remaining] using this
          · cases h

theorem remaining_of_unread {r after : Reader} {c : Char}
    (h : unread (some c) r = .ok () after) : after.remaining = r.remaining + 1 := by
  obtain ⟨input, ahead, taken, position⟩ := r
  cases taken with
  | nil => cases h
  | cons last taken =>
      simp only [unread] at h
      split at h
      · cases h
        simp [remaining]
        omega
      · cases h

/-- Taking a code point and giving it back leaves no more to come than before. -/
theorem remaining_le_of_unread {r middle after : Reader} {c : Option Char}
    (hnext : next r = .ok c middle) (h : unread c middle = .ok () after) :
    after.remaining ≤ r.remaining := by
  cases c with
  | none =>
      cases h
      exact remaining_le_of_next hnext
  | some c =>
      have := remaining_lt_of_next hnext
      have := remaining_of_unread h
      omega

/-- Two steps give a result only if the first does. -/
theorem bind_eq_ok {α β : Type} {first : Scan α} {rest : α → Scan β} {r after : Reader}
    {b : β} (h : (first >>= rest) r = .ok b after) :
    ∃ a middle, first r = .ok a middle ∧ rest a middle = .ok b after := by
  simp only [bind, EStateM.bind] at h
  split at h
  · next a middle hfirst => exact ⟨a, middle, hfirst, h⟩
  · cases h

theorem remaining_le_of_peek {r after : Reader} {c : Option Char} (h : peek r = .ok c after) :
    after.remaining ≤ r.remaining := by
  obtain ⟨c', middle, hnext, h⟩ := bind_eq_ok h
  obtain ⟨_, last, hunread, h⟩ := bind_eq_ok h
  cases h
  exact remaining_le_of_unread hnext hunread

end Reader

end CssSyntax
