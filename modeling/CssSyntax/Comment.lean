import CssSyntax.Text

/-!
Comments, which end at the first star that a slash follows.
-/

namespace CssSyntax.Comment

/-- The inside of a comment, read from behind its opening mark. -/
structure Reading where
  content : Text
  /-- Whether the closing mark was there; otherwise the comment ran to the end of the text. -/
  closed : Bool
  rest : Text

def read : Text → Reading
  | [] => ⟨[], false, []⟩
  | '*' :: '/' :: rest => ⟨[], true, rest⟩
  | c :: rest => let inner := read rest; { inner with content := c :: inner.content }

theorem length_read_le (text : Text) : (read text).rest.length ≤ text.length := by
  fun_induction read text with
  | case1 => exact Nat.le_refl _
  | case2 rest => exact Nat.le_add_right _ 2
  | case3 c rest h inner ih => exact Nat.le_succ_of_le ih

end CssSyntax.Comment
