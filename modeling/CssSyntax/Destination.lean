import CssSyntax.Text

/-!
Destinations of text. A destination may refuse what is written to it. What it took before then
stays where it is.
-/

namespace CssSyntax

/-- What a destination says when it takes no more. -/
inductive Refusal where
  | refused
  deriving DecidableEq, Repr

/-- Writing to a destination that holds a `σ`, up to the first refusal. -/
abbrev Writing (σ : Type) := EStateM Refusal σ

/-- What text is written to, piece by piece. -/
structure Destination (σ : Type) where
  put : Text → Writing σ Unit

namespace Destination

/-- A text that grows by whatever is written to it. -/
def growing : Destination Text := ⟨fun piece => modify (· ++ piece)⟩

/-- Keeps a code point where fewer than `limit` are kept, and refuses it otherwise. -/
def keepWithin (limit : Nat) (c : Char) : Writing Text Unit := fun kept =>
  if kept.length < limit then .ok () (kept ++ [c]) else .error .refused kept

/-- A text that takes the first `limit` code points. Of a piece that does not fit it keeps what
does. -/
def limited (limit : Nat) : Destination Text := ⟨fun piece => piece.forM (keepWithin limit)⟩

end Destination

end CssSyntax
