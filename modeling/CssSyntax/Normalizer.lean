import CssSyntax.Source

/-!
Normalization while reading. A carriage return and a high surrogate need the unit after them to be
understood; if that turns out not to belong to them, it is held for the next read. A failure in
between loses the unit before it.
-/

namespace CssSyntax

/-- A source with at most one unit read ahead of it. -/
structure Normalizer where
  source : Source
  held : Option UInt32 := none

namespace Normalizer

def ofSource (source : Source) : Normalizer := ⟨source, none⟩

/-- An upper bound on the code points still to come. -/
def remaining (n : Normalizer) : Nat := n.source.length + (if n.held.isSome then 1 else 0)

/-- The held unit if there is one, else the next unit of the source. -/
def readUnit (n : Normalizer) : EStateM.Result Failure Source (Option UInt32) :=
  match n.held with
  | some unit => .ok (some unit) n.source
  | none => n.source.read

/-- The code point of a high surrogate, which depends on the next unit of the source. -/
def pairHigh (high : UInt32) (source : Source) : EStateM.Result Failure Normalizer (Option Char) :=
  match source.read with
  | .error f source => .error f ⟨source, none⟩
  | .ok none source => .ok (some replacement) ⟨source, none⟩
  | .ok (some next) source =>
      if Units.isLow next then .ok (some (Units.pair high next)) ⟨source, none⟩
      else .ok (some replacement) ⟨source, some next⟩

/-- The line feed of a carriage return, which takes a line feed after it along. -/
def foldReturn (source : Source) : EStateM.Result Failure Normalizer (Option Char) :=
  match source.read with
  | .error f source => .error f ⟨source, none⟩
  | .ok none source => .ok (some '\n') ⟨source, none⟩
  | .ok (some next) source =>
      .ok (some '\n') ⟨source, if next = 0x0A then none else some next⟩

/-- The code point that a unit begins, given the source behind it. -/
def interpret (unit : UInt32) (source : Source) : EStateM.Result Failure Normalizer (Option Char) :=
  if Units.isHigh unit then pairHigh unit source
  else if unit = 0x0D then foldReturn source
  else if unit = 0x0C then .ok (some '\n') ⟨source, none⟩
  else .ok (some (CodePoint.ofNumber unit.toNat)) ⟨source, none⟩

/-- Reads the next normalized code point; `none` is the end. -/
def read (n : Normalizer) : EStateM.Result Failure Normalizer (Option Char) :=
  match n.readUnit with
  | .error f source => .error f ⟨source, none⟩
  | .ok none source => .ok none ⟨source, none⟩
  | .ok (some unit) source => interpret unit source

/-- Reads a number of times, whatever comes. -/
def readMany : Nat → Normalizer → List (Except Failure (Option Char)) × Normalizer
  | 0, n => ([], n)
  | count + 1, n =>
      match n.read with
      | .ok c after => let later := readMany count after; (.ok c :: later.1, later.2)
      | .error f after => let later := readMany count after; (.error f :: later.1, later.2)

theorem length_source_lt {source rest : Source} {unit : UInt32}
    (h : source.read = .ok (some unit) rest) : rest.length < source.length := by
  cases source with
  | nil => cases h
  | cons item tail =>
      cases item <;> cases h
      exact Nat.lt_succ_self _

theorem length_source_lt_of_error {source rest : Source} {f : Failure}
    (h : source.read = .error f rest) : rest.length < source.length := by
  cases source with
  | nil => cases h
  | cons item tail =>
      cases item <;> cases h
      exact Nat.lt_succ_self _

theorem source_of_end {source rest : Source} (h : source.read = .ok none rest) :
    rest = source := by
  cases source with
  | nil => cases h; rfl
  | cons item tail => cases item <;> cases h

theorem remaining_pairHigh_le (high : UInt32) (source : Source) :
    match pairHigh high source with
    | .ok c after => c.isSome ∧ after.remaining ≤ source.length
    | .error _ after => after.remaining ≤ source.length := by
  unfold pairHigh
  cases h : source.read with
  | error f rest => exact Nat.le_of_lt (length_source_lt_of_error h)
  | ok next rest =>
      cases next with
      | none => exact ⟨rfl, by simp [remaining, source_of_end h]⟩
      | some next =>
          have := length_source_lt h
          by_cases low : Units.isLow next <;> simp [low, remaining] <;> omega

theorem remaining_foldReturn_le (source : Source) :
    match foldReturn source with
    | .ok c after => c.isSome ∧ after.remaining ≤ source.length
    | .error _ after => after.remaining ≤ source.length := by
  unfold foldReturn
  cases h : source.read with
  | error f rest => exact Nat.le_of_lt (length_source_lt_of_error h)
  | ok next rest =>
      cases next with
      | none => exact ⟨rfl, by simp [remaining, source_of_end h]⟩
      | some next =>
          have := length_source_lt h
          by_cases feed : next = 0x0A <;> simp [feed, remaining] <;> omega

theorem remaining_interpret_le (unit : UInt32) (source : Source) :
    match interpret unit source with
    | .ok c after => c.isSome ∧ after.remaining ≤ source.length
    | .error _ after => after.remaining ≤ source.length := by
  unfold interpret
  by_cases high : Units.isHigh unit
  · rw [if_pos high]
    exact remaining_pairHigh_le unit source
  · by_cases feed : unit = 0x0D
    · rw [if_neg high, if_pos feed]
      exact remaining_foldReturn_le source
    · by_cases form : unit = 0x0C
      · rw [if_neg high, if_neg feed, if_pos form]
        exact ⟨rfl, Nat.le_refl _⟩
      · rw [if_neg high, if_neg feed, if_neg form]
        exact ⟨rfl, Nat.le_refl _⟩

/-- Every code point and every failure takes something of what was left. -/
theorem remaining_read (n : Normalizer) :
    match n.read with
    | .ok none after => after.remaining ≤ n.remaining
    | .ok (some _) after => after.remaining < n.remaining
    | .error _ after => after.remaining < n.remaining := by
  have interpreted (unit : UInt32) (source : Source) (h : source.length < n.remaining) :
      match interpret unit source with
      | .ok none after => after.remaining ≤ n.remaining
      | .ok (some _) after => after.remaining < n.remaining
      | .error _ after => after.remaining < n.remaining := by
    have bound := remaining_interpret_le unit source
    cases hi : interpret unit source with
    | error f after =>
        rw [hi] at bound
        exact Nat.lt_of_le_of_lt bound h
    | ok c after =>
        rw [hi] at bound
        cases c with
        | none => exact absurd bound.1 (by simp)
        | some c => exact Nat.lt_of_le_of_lt bound.2 h
  obtain ⟨source, held⟩ := n
  unfold read readUnit
  cases held with
  | some unit => exact interpreted unit source (Nat.lt_succ_self _)
  | none =>
      cases hs : source.read with
      | error f rest => exact length_source_lt_of_error hs
      | ok unit rest =>
          cases unit with
          | none => exact Nat.le_of_eq (congrArg List.length (source_of_end hs))
          | some unit => exact interpreted unit rest (length_source_lt hs)

theorem remaining_lt_of_ok {n after : Normalizer} {c : Char}
    (h : n.read = .ok (some c) after) : after.remaining < n.remaining := by
  have := remaining_read n
  rwa [h] at this

theorem remaining_lt_of_error {n after : Normalizer} {f : Failure}
    (h : n.read = .error f after) : after.remaining < n.remaining := by
  have := remaining_read n
  rwa [h] at this

theorem remaining_le_of_end {n after : Normalizer} (h : n.read = .ok none after) :
    after.remaining ≤ n.remaining := by
  have := remaining_read n
  rwa [h] at this

/-- Reads up to and including the first end of the input, past all failures. -/
def readToEnd (n : Normalizer) : List (Except Failure (Option Char)) × Normalizer :=
  match _h : n.read with
  | .ok none after => ([.ok none], after)
  | .ok (some c) after => let later := readToEnd after; (.ok (some c) :: later.1, later.2)
  | .error f after => let later := readToEnd after; (.error f :: later.1, later.2)
termination_by n.remaining
decreasing_by
  · exact remaining_lt_of_ok _h
  · exact remaining_lt_of_error _h

end Normalizer

end CssSyntax
