import CssSyntax.Units

/-!
Sources of input: units in order, with failures between them. A failure spoils one read and no
other, and a source that has come to its end stays there.
-/

namespace CssSyntax

/-- A failure of a source. What it says of itself is handed on as it is. -/
structure Failure where
  message : String
  deriving DecidableEq, Repr

/-- What one read of a source brings. -/
inductive Item where
  | unit (unit : UInt32)
  | failure (failure : Failure)
  deriving DecidableEq, Repr

/-- What is left to read. -/
abbrev Source := List Item

namespace Source

/-- A source that yields the code points of a text. -/
def ofText (text : Text) : Source := (Units.ofText text).map .unit

/-- A source of UTF-16 code units, which ends for good at the first gap. -/
def ofUtf16 (units : List (Option UInt16)) : Source :=
  (units.takeWhile Option.isSome).filterMap fun unit => unit.map fun u => .unit u.toUInt32

/-- Reads the next unit; `none` is the end. -/
def read : Source → EStateM.Result Failure Source (Option UInt32)
  | [] => .ok none []
  | .unit u :: rest => .ok (some u) rest
  | .failure f :: rest => .error f rest

/-- The units that a number of reads bring from a source that does not fail before then; past the
end there are none. -/
def readMany : Nat → Source → List (Option UInt32)
  | 0, _ => []
  | count + 1, source =>
      match source.read with
      | .ok unit rest => unit :: readMany count rest
      | .error _ _ => []

end Source

end CssSyntax
