import CssSyntax.Proofs.NormalForm
import CssSyntax.Proofs.Steps

/-!
What is written with escapes is read back as it was, whatever stands behind it; only NUL comes back
as the replacement character. All that is written is normal text.
-/

namespace CssSyntax

open CodePoint

namespace Escape

/-- The number that hexadecimal digits make up behind a `value`. -/
def hexNumber (value : Nat) (run : Text) : Nat :=
  run.foldl (fun number c => number * 16 + (hexValue? c).getD 0) value

theorem digits_append {run : Text} (hex : ∀ c ∈ run, (hexValue? c).isSome) (room value : Nat)
    (rest : Text) :
    digits (run.length + room) value (run ++ rest) = digits room (hexNumber value run) rest := by
  induction run generalizing value with
  | nil => rw [List.length_nil, Nat.zero_add]; rfl
  | cons c run ih =>
      obtain ⟨first, hex⟩ := List.forall_mem_cons.mp hex
      obtain ⟨d, hd⟩ := Option.isSome_iff_exists.mp first
      have number : hexNumber value (c :: run) = hexNumber (value * 16 + d) run := by
        rw [hexNumber, List.foldl_cons, hd]
        rfl
      rw [List.length_cons, Nat.succ_add, List.cons_append, digits, hd, number]
      exact ih hex _

theorem hexValue?_lineFeed : hexValue? '\n' = none := by decide

/-- One to six digits, with those behind them if there is room for more, name a code point. -/
theorem read_run {run : Text} (hex : ∀ c ∈ run, (hexValue? c).isSome) (nonempty : run ≠ [])
    {room : Nat} (hroom : run.length + room = 6) (rest : Text) :
    read (run ++ rest) =
      some (ofNumber (digits room (hexNumber 0 run) rest).1,
        (digits room (hexNumber 0 run) rest).2) := by
  obtain ⟨c, run, rfl⟩ := List.exists_cons_of_ne_nil nonempty
  obtain ⟨first, hex⟩ := List.forall_mem_cons.mp hex
  obtain ⟨d, hd⟩ := Option.isSome_iff_exists.mp first
  have notFeed : c ≠ '\n' := by
    rintro rfl
    rw [hexValue?_lineFeed] at hd
    cases hd
  have number : hexNumber 0 (c :: run) = hexNumber d run := by
    rw [hexNumber, List.foldl_cons, hd, Nat.zero_mul, Nat.zero_add]
    rfl
  have taken : digits 5 d (run ++ rest) = digits room (hexNumber d run) rest := by
    have hfive : run.length + room = 5 := by
      rw [List.length_cons] at hroom
      omega
    rw [← hfive, digits_append hex]
  rw [List.cons_append, read, if_neg notFeed, hd, number]
  simp only [taken]

/-- One to five digits and a blank are read as the code point with that number. -/
theorem read_digits {run : Text} (hex : ∀ c ∈ run, (hexValue? c).isSome) (nonempty : run ≠ [])
    (short : run.length ≤ 5) (rest : Text) :
    read (run ++ ' ' :: rest) = some (ofNumber (hexNumber 0 run), rest) := by
  obtain ⟨room, hroom⟩ := Nat.exists_eq_add_of_le short
  have more : run.length + (room + 1) = 6 := by omega
  rw [read_run hex nonempty more]
  rfl

theorem hexValue?_digitChar {n : Nat} (h : n < 16) : hexValue? n.digitChar = some n :=
  (by decide : ∀ n < 16, hexValue? n.digitChar = some n) n h

theorem hex_toDigits (n : Nat) : ∀ c ∈ Nat.toDigits 16 n, (hexValue? c).isSome := by
  induction n using Nat.strongRecOn with
  | ind n ih =>
      rw [Nat.toDigits_eq_if (by decide)]
      split
      · next small => simp [hexValue?_digitChar small]
      · next large =>
          intro c hc
          rcases List.mem_append.mp hc with front | last
          · exact ih (n / 16) (Nat.div_lt_self (by omega) (by decide)) c front
          · rw [List.mem_singleton.mp last, hexValue?_digitChar (Nat.mod_lt n (by decide))]
            rfl

@[simp] theorem hexNumber_toDigits (n : Nat) : hexNumber 0 (Nat.toDigits 16 n) = n := by
  induction n using Nat.strongRecOn with
  | ind n ih =>
      rw [Nat.toDigits_eq_if (by decide)]
      split
      · next small => simp [hexNumber, hexValue?_digitChar small]
      · next large =>
          have front := ih (n / 16) (Nat.div_lt_self (by omega) (by decide))
          have last := hexValue?_digitChar (Nat.mod_lt n (show 0 < 16 by decide))
          rw [hexNumber] at front ⊢
          rw [List.foldl_append, front, List.foldl_cons, List.foldl_nil, last, Option.getD_some]
          omega

/-- A code point named by its number is read back, unless it is NUL. -/
theorem read_byNumber {c : Char} (small : c.toNat < 0x100000) (rest : Text) :
    ∃ tail, byNumber c = '\\' :: tail ∧ read (tail ++ rest) = some (ofNumber c.toNat, rest) := by
  refine ⟨Nat.toDigits 16 c.toNat ++ [' '], rfl, ?_⟩
  have short : (Nat.toDigits 16 c.toNat).length ≤ 5 :=
    (Nat.length_toDigits_le_iff (by decide) (by decide)).mpr small
  have found := read_digits (hex_toDigits c.toNat) Nat.toDigits_ne_nil short rest
  rwa [hexNumber_toDigits, ← List.singleton_append, ← List.append_assoc] at found

theorem read_byItself {c : Char} (plain : hexValue? c = none) (notFeed : c ≠ '\n') (rest : Text) :
    read (c :: rest) = some (c, rest) := by
  rw [read, if_neg notFeed, plain]

/-- A reader that puts every written code point in front of what it reads behind it reads the
whole of what is written. -/
theorem read_replace {β : Type} {read : Text → β} {put : Text → β → β}
    {form? : Char → Option Text} (put_nil : ∀ b, put [] b = b)
    (put_cons : ∀ c text b, put [c] (put text b) = put (c :: text) b)
    (step : ∀ c rest, read ((form? c).getD [c] ++ rest) = put [ofNumber c.toNat] (read rest))
    (text rest : Text) :
    read (replace form? text ++ rest) = put text.replaceNul (read rest) := by
  induction text with
  | nil => exact (put_nil _).symm
  | cons c text ih =>
      have front : replace form? (c :: text) = (form? c).getD [c] ++ replace form? text := rfl
      rw [front, List.append_assoc, step, ih, put_cons]
      rfl

@[simp] theorem isNormal_byNumber (c : Char) : (byNumber c).IsNormal := by
  intro d hd
  simp only [byNumber, List.cons_append, List.mem_cons, List.mem_append, List.not_mem_nil,
    or_false] at hd
  rcases hd with rfl | digit | rfl
  · decide
  · have hex := hex_toDigits c.toNat d digit
    refine ⟨?_, ?_, ?_⟩ <;> rintro rfl <;> exact absurd hex (by decide)
  · decide

theorem isNormal_replace {form? : Char → Option Text}
    (each : ∀ c, ((form? c).getD [c]).IsNormal) (text : Text) : (replace form? text).IsNormal := by
  intro d hd
  obtain ⟨c, _, mem⟩ := List.mem_flatMap.mp hd
  exact each c d mem

end Escape

theorem CodePoint.toNat_lt_of_isControl {c : Char} (control : isControl c) :
    c.toNat < 0x100000 := by
  simp only [isControl, Bool.or_eq_true, decide_eq_true_eq, beq_iff_eq] at control
  omega

theorem CodePoint.ne_of_not_isControl {c d : Char} (printable : ¬isControl c)
    (control : isControl d) : c ≠ d := by
  rintro rfl
  exact printable control

theorem CodePoint.isNormal_of_not_isControl {c : Char} (h : ¬isControl c) : Text.IsNormal [c] := by
  intro d hd
  rw [List.mem_singleton.mp hd]
  exact ⟨ne_of_not_isControl h rfl, ne_of_not_isControl h rfl, ne_of_not_isControl h rfl⟩

theorem CodePoint.isControl_of_isNonPrintable {c : Char} (h : isNonPrintable c) : isControl c := by
  simp only [isNonPrintable, isControl, Bool.or_eq_true, Bool.and_eq_true, decide_eq_true_eq,
    beq_iff_eq] at h ⊢
  omega

theorem CodePoint.isName_of_hexValue? {c : Char} (h : (hexValue? c).isSome) : isName c := by
  have start (letter : (65 ≤ c.toNat ∧ c.toNat ≤ 90) ∨ (97 ≤ c.toNat ∧ c.toNat ≤ 122)) :
      isName c := by
    have first : isNameStart c := (isNameStart_iff c).mpr (.inl (.inl letter))
    simp [isName, first]
  unfold hexValue? at h
  split at h
  · next digit => simp [isName, digit]
  · split at h
    · next lower => exact start (.inr ⟨lower.1, Nat.le_trans lower.2 (by decide)⟩)
    · split at h
      · next upper => exact start (.inl ⟨upper.1, Nat.le_trans upper.2 (by decide)⟩)
      · cases h

namespace Name

/-- The text of a name. -/
def written (name : Text) : Text := (pieces name).flatten

theorem written_eq (name : Text) : written name = Escape.replace form? name :=
  Escape.flatten_pieces form? [] name

@[simp] theorem written_cons (c : Char) (name : Text) :
    written (c :: name) = (form? c).getD [c] ++ written name := by
  rw [written_eq, written_eq]
  rfl

theorem form?_of_isName {c : Char} (name : isName c) : form? c = none := if_pos name

theorem read_form (c : Char) (rest : Text) :
    read ((form? c).getD [c] ++ rest) = (ofNumber c.toNat :: (read rest).1, (read rest).2) := by
  unfold form?
  split
  · next name =>
      have notNul : c ≠ '\x00' := by
        rintro rfl
        exact absurd name (by decide)
      rw [ofNumber_toNat_of_ne notNul]
      exact read_of_name name rest
  · next notName =>
      split
      · next control =>
          obtain ⟨tail, htail, hread⟩ := Escape.read_byNumber (toNat_lt_of_isControl control) rest
          rw [Option.getD_some, htail]
          exact read_of_escape hread
      · next printable =>
          have plain : hexValue? c = none :=
            Option.not_isSome_iff_eq_none.mp (mt isName_of_hexValue? notName)
          have notFeed : c ≠ '\n' := ne_of_not_isControl printable rfl
          have notNul : c ≠ '\x00' := ne_of_not_isControl printable rfl
          rw [ofNumber_toNat_of_ne notNul]
          exact read_of_escape (Escape.read_byItself plain notFeed rest)

/-- A name is read back, with the name that stands behind it, if one does. -/
@[simp] theorem read_written (name rest : Text) :
    read (written name ++ rest) = (name.replaceNul ++ (read rest).1, (read rest).2) := by
  let put (text : Text) (inner : Text × Text) : Text × Text := (text ++ inner.1, inner.2)
  have taken : read (Escape.replace form? name ++ rest) = put name.replaceNul (read rest) :=
    Escape.read_replace (fun _ => rfl) (fun _ _ _ => rfl) read_form name rest
  rw [written_eq, taken]

@[simp] theorem isNormal_written (name : Text) : (written name).IsNormal := by
  rw [written_eq]
  refine Escape.isNormal_replace (fun c => ?_) name
  unfold form?
  split
  · next name =>
      intro d hd
      rw [List.mem_singleton.mp hd]
      refine ⟨?_, ?_, ?_⟩ <;> rintro rfl <;> exact absurd name (by decide)
  · split
    · exact Escape.isNormal_byNumber c
    · next printable =>
        exact Text.isNormal_cons.mpr ⟨by decide, isNormal_of_not_isControl printable⟩

end Name

namespace Quoted

theorem read_form (c : Char) (rest : Text) :
    read '"' ((form? c).getD [c] ++ rest) =
      { read '"' rest with content := ofNumber c.toNat :: (read '"' rest).content } := by
  have notQuote : '\\' ≠ '"' := by decide
  unfold form?
  split
  · next special =>
      rcases special with rfl | rfl
      · exact read_of_escape notQuote (Escape.read_byItself (by decide) (by decide) rest)
      · exact read_of_escape notQuote (Escape.read_byItself (by decide) (by decide) rest)
  · next plain =>
      split
      · next nul =>
          rw [nul]
          exact read_of_plain (by decide) (by decide) (by decide) rest
      · next notNul =>
          rw [ofNumber_toNat_of_ne notNul]
          split
          · next control =>
              obtain ⟨tail, htail, hread⟩ :=
                Escape.read_byNumber (toNat_lt_of_isControl control) rest
              rw [ofNumber_toNat_of_ne notNul] at hread
              rw [Option.getD_some, htail]
              exact read_of_escape notQuote hread
          · next printable =>
              obtain ⟨notQuote, notEscape⟩ := not_or.mp plain
              exact read_of_plain notQuote (ne_of_not_isControl printable rfl) notEscape rest

/-- The content of a string is read back in front of what is read behind it. -/
theorem read_content_append (content rest : Text) :
    read '"' ((contentPieces content).flatten ++ rest) =
      { read '"' rest with content := content.replaceNul ++ (read '"' rest).content } := by
  let put (text : Text) (inner : Reading) : Reading :=
    { inner with content := text ++ inner.content }
  have taken : read '"' (Escape.replace form? content ++ rest) =
      put content.replaceNul (read '"' rest) :=
    Escape.read_replace (fun _ => rfl) (fun _ _ _ => rfl) read_form content rest
  rw [flatten_contentPieces]
  exact taken

/-- A string is read back up to its closing quote, whatever stands behind it. -/
@[simp] theorem read_contentPieces (content rest : Text) :
    read '"' ((contentPieces content).flatten ++ '"' :: rest) =
      ⟨content.replaceNul, .quote, rest⟩ := by
  rw [read_content_append, read_of_quote, List.append_nil]

/-- Without its closing quote a string is read back up to the end of the line. -/
theorem read_contentPieces_lineFeed (content rest : Text) :
    read '"' ((contentPieces content).flatten ++ '\n' :: rest) =
      ⟨content.replaceNul, .lineFeed, '\n' :: rest⟩ := by
  rw [read_content_append, read_of_lineFeed (by decide), List.append_nil]

@[simp] theorem isNormal_contentPieces (content : Text) :
    Text.IsNormal (contentPieces content).flatten := by
  rw [flatten_contentPieces]
  refine Escape.isNormal_replace (fun c => ?_) content
  unfold form?
  split
  · next special => rcases special with rfl | rfl <;> simp [Escape.byItself]
  · split
    · simp [Text.IsNormal, replacement]
    · split
      · exact Escape.isNormal_byNumber c
      · next printable => exact isNormal_of_not_isControl printable

end Quoted

namespace Url

/-- What stands for itself in a url neither ends it nor spoils it. -/
theorem plain_of_form? {c : Char} (h : form? c = none) :
    c ≠ '\x00' ∧ c ≠ ')' ∧ ¬isWhitespace c ∧ ¬spoils c ∧ c ≠ '\\' := by
  simp only [form?, Bool.or_eq_true, beq_iff_eq] at h
  split at h
  · cases h
  · next visible =>
      split at h
      · cases h
      · next special =>
          simp only [not_or] at visible special
          obtain ⟨printable, notSpace⟩ := visible
          obtain ⟨⟨⟨⟨notOpen, notClosed⟩, notQuote⟩, notApostrophe⟩, notEscape⟩ := special
          have notTab : c ≠ '\t' := ne_of_not_isControl printable rfl
          have notFeed : c ≠ '\n' := ne_of_not_isControl printable rfl
          have clean := mt isControl_of_isNonPrintable printable
          refine ⟨ne_of_not_isControl printable rfl, notClosed, ?_, ?_, notEscape⟩
          · simp [isWhitespace, notSpace, notTab, notFeed]
          · simpa [spoils, notQuote, notApostrophe, notOpen] using clean

theorem escape_of_form? {c : Char} {form : Text} (h : form? c = some form) :
    (form = Escape.byNumber c ∧ c.toNat < 0x100000) ∨
      (form = Escape.byItself c ∧ c ≠ '\x00' ∧ hexValue? c = none ∧ c ≠ '\n') := by
  simp only [form?, Bool.or_eq_true, beq_iff_eq] at h
  split at h
  · next hidden =>
      cases h
      rcases hidden with control | rfl
      · exact .inl ⟨rfl, toNat_lt_of_isControl control⟩
      · exact .inl ⟨rfl, by decide⟩
  · split at h
    · next special =>
        cases h
        refine .inr ⟨rfl, ?_⟩
        rcases special with (((rfl | rfl) | rfl) | rfl) | rfl <;> decide
    · cases h

theorem read_form (c : Char) (rest : Text) :
    read ((form? c).getD [c] ++ rest) =
      { read rest with content := ofNumber c.toNat :: (read rest).content } := by
  cases h : form? c with
  | none =>
      obtain ⟨notNul, notClosed, notBlank, clean, notEscape⟩ := plain_of_form? h
      rw [ofNumber_toNat_of_ne notNul]
      exact read_of_plain notClosed notBlank clean notEscape rest
  | some form =>
      rcases escape_of_form? h with ⟨rfl, small⟩ | ⟨rfl, notNul, plain, notFeed⟩
      · obtain ⟨tail, htail, hread⟩ := Escape.read_byNumber small rest
        rw [Option.getD_some, htail]
        exact read_of_escape hread
      · rw [ofNumber_toNat_of_ne notNul]
        exact read_of_escape (Escape.read_byItself plain notFeed rest)

/-- An unquoted url is read back up to its closing parenthesis, whatever stands behind it. -/
@[simp] theorem read_contentPieces (content rest : Text) :
    read ((contentPieces content).flatten ++ ')' :: rest) = ⟨content.replaceNul, true, rest⟩ := by
  let put (text : Text) (inner : Reading) : Reading :=
    { inner with content := text ++ inner.content }
  have taken : read (Escape.replace form? content ++ ')' :: rest) =
      put content.replaceNul (read (')' :: rest)) :=
    Escape.read_replace (fun _ => rfl) (fun _ _ _ => rfl) read_form content _
  rw [flatten_contentPieces, taken, read_of_close]
  simp only [put, List.append_nil]

@[simp] theorem isNormal_contentPieces (content : Text) :
    Text.IsNormal (contentPieces content).flatten := by
  rw [flatten_contentPieces]
  refine Escape.isNormal_replace (fun c => ?_) content
  unfold form?
  split
  · exact Escape.isNormal_byNumber c
  · next visible =>
      have printable : ¬isControl c := by
        simp only [Bool.or_eq_true, not_or] at visible
        exact visible.1
      split
      · exact Text.isNormal_cons.mpr ⟨by decide, isNormal_of_not_isControl printable⟩
      · exact isNormal_of_not_isControl printable

end Url

end CssSyntax
