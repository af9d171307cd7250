import CssSyntax.Text

/-!
Texts in UTF-8. Places in a text may be counted in bytes, and a text be cut there; a cut falls
between two code points only at some of these places.
-/

namespace CssSyntax

namespace Text

/-- The bytes that a text takes in UTF-8. -/
def byteLength : Text → Nat
  | [] => 0
  | c :: rest => c.utf8Size + byteLength rest

@[simp] theorem byteLength_nil : byteLength [] = 0 := rfl

@[simp] theorem byteLength_cons (c : Char) (rest : Text) :
    byteLength (c :: rest) = c.utf8Size + byteLength rest := rfl

@[simp] theorem byteLength_append (front rest : Text) :
    byteLength (front ++ rest) = byteLength front + byteLength rest := by
  induction front with
  | nil => simp
  | cons c front ih => simp [ih, Nat.add_assoc]

/-- A text in UTF-8. -/
def utf8 (text : Text) : List UInt8 := text.flatMap String.utf8EncodeChar

@[simp] theorem utf8_nil : utf8 [] = [] := rfl

@[simp] theorem utf8_cons (c : Char) (rest : Text) :
    utf8 (c :: rest) = String.utf8EncodeChar c ++ utf8 rest := rfl

@[simp] theorem utf8_append (front rest : Text) :
    utf8 (front ++ rest) = utf8 front ++ utf8 rest :=
  List.flatMap_append

@[simp] theorem length_utf8 (text : Text) : (utf8 text).length = byteLength text := by
  induction text with
  | nil => rfl
  | cons c rest ih => simp [ih]

theorem byteLength_singleton_of_ascii {c : Char} (ascii : c.val ≤ 127) : byteLength [c] = 1 :=
  Char.utf8Size_eq_one_iff.mpr ascii

/-- The text that bytes are in UTF-8, if they are one. -/
def ofUtf8? (bytes : List UInt8) : Option Text := bytes.toByteArray.utf8Decode?.map Array.toList

@[simp] theorem ofUtf8?_utf8 (text : Text) : ofUtf8? (utf8 text) = some text := by
  have decoded : (List.utf8Encode text).utf8Decode? = some text.toArray :=
    List.utf8Decode?_utf8Encode
  rw [List.utf8Encode] at decoded
  rw [ofUtf8?, utf8, decoded]
  rfl

/-- The text between two places counted in bytes. Both are to lie between code points. -/
def slice (text : Text) (start stop : Nat) : Text :=
  (ofUtf8? (((utf8 text).take stop).drop start)).getD []

end Text

end CssSyntax
