import CssSyntax.Text

/-!
Positions in normalized text, counted in code points.
-/

namespace CssSyntax

/-- A place between two code points. Offsets start at zero, lines and columns at one. -/
structure Position where
  offset : Nat
  line : Nat
  column : Nat
  deriving DecidableEq, Repr

namespace Position

def start : Position := ⟨0, 1, 1⟩

/-- The place after one more code point; a line feed ends its line. -/
def step (p : Position) (c : Char) : Position :=
  if c = '\n' then ⟨p.offset + 1, p.line + 1, 1⟩ else ⟨p.offset + 1, p.line, p.column + 1⟩

/-- The place after a stretch of text. -/
def after (p : Position) (text : Text) : Position := text.foldl step p

@[simp] theorem after_nil (p : Position) : p.after [] = p := rfl

@[simp] theorem after_cons (p : Position) (c : Char) (rest : Text) :
    p.after (c :: rest) = (p.step c).after rest := rfl

@[simp] theorem after_append (p : Position) (first second : Text) :
    p.after (first ++ second) = (p.after first).after second :=
  List.foldl_append

@[simp] theorem offset_step (p : Position) (c : Char) : (p.step c).offset = p.offset + 1 := by
  unfold step
  split <;> rfl

@[simp] theorem offset_after (p : Position) (text : Text) :
    (p.after text).offset = p.offset + text.length := by
  induction text generalizing p with
  | nil => rfl
  | cons c rest ih =>
      rw [after_cons, ih, offset_step, List.length_cons]
      omega

end Position

end CssSyntax
