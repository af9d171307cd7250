import CssSyntax.Proofs.Escaping
import CssSyntax.Proofs.Starts

/-!
Identifiers are read back as they were written. The written form hides a leading digit and a lone
hyphen behind an escape, so that it starts an identifier, and never a number or a mark.
-/

namespace CssSyntax

open CodePoint

namespace Name

/-- A name starts with its first code point or with a backslash. -/
theorem form_cases (c : Char) :
    (isName c ∧ (form? c).getD [c] = [c]) ∨ ∃ more, (form? c).getD [c] = '\\' :: more := by
  unfold form?
  split
  · next name => exact .inl ⟨name, rfl⟩
  · split
    · exact .inr ⟨_, rfl⟩
    · exact .inr ⟨_, rfl⟩

/-- Where all that stands in front of a text is read as a name, a name goes on. -/
theorem continuesName_of_read {front rest : Text} (nonempty : front ≠ [])
    (h : (read (front ++ rest)).2 = (read rest).2) :
    (Lookahead.ofText (front ++ rest)).continuesName := by
  have bound := length_read_le rest
  have more := List.length_pos_iff.mpr nonempty
  rw [continuesName_iff, h, List.length_append]
  omega

end Name

namespace Identifier

/-- The text of an identifier. -/
def written (name : Text) : Text := (pieces name).flatten

@[simp] theorem written_hyphen : written ['-'] = ['\\', '-'] := rfl

@[simp] theorem written_hyphens (rest : Text) :
    written ('-' :: '-' :: rest) = '-' :: '-' :: Name.written rest :=
  rfl

theorem written_of_hyphen {c : Char} (h : c ≠ '-') (rest : Text) :
    written ('-' :: c :: rest) = '-' :: (tail (c :: rest)).flatten := by
  simp [written, pieces, h]

theorem written_of_ne {c : Char} (h : c ≠ '-') (rest : Text) :
    written (c :: rest) = (tail (c :: rest)).flatten := by
  simp [written, pieces, h]

/-- The forms of an identifier: a lone hyphen, two hyphens in front, one, or none. -/
theorem cases_of_ne_nil {name : Text} (h : name ≠ []) :
    name = ['-'] ∨ (∃ rest, name = '-' :: '-' :: rest) ∨
      (∃ c rest, c ≠ '-' ∧ name = '-' :: c :: rest) ∨ ∃ c rest, c ≠ '-' ∧ name = c :: rest := by
  obtain ⟨c, rest, rfl⟩ := List.exists_cons_of_ne_nil h
  by_cases hyphen : c = '-'
  · subst hyphen
    cases rest with
    | nil => exact .inl rfl
    | cons d rest =>
        by_cases again : d = '-'
        · exact .inr (.inl ⟨rest, by rw [again]⟩)
        · exact .inr (.inr (.inl ⟨d, rest, again, rfl⟩))
  · exact .inr (.inr (.inr ⟨c, rest, hyphen, rfl⟩))

/-- Behind its hyphen, an identifier starts with a code point that may begin it, or a backslash. -/
theorem tail_cases (c : Char) (rest : Text) :
    (isName c ∧ c.isDigit = false ∧ (tail (c :: rest)).flatten = c :: Name.written rest) ∨
      ∃ more, (tail (c :: rest)).flatten = '\\' :: more := by
  by_cases digit : c.isDigit
  · exact .inr ⟨_, by rw [tail, if_pos digit]; rfl⟩
  · have whole : (tail (c :: rest)).flatten = Name.written (c :: rest) := by
      rw [tail, if_neg digit]
      rfl
    rw [whole, Name.written_cons]
    rcases Name.form_cases c with ⟨name, form⟩ | ⟨more, form⟩
    · exact .inl ⟨name, by simpa using digit, by rw [form]; rfl⟩
    · exact .inr ⟨more ++ Name.written rest, by rw [form]; rfl⟩

theorem read_tail (name rest : Text) :
    Name.read ((tail name).flatten ++ rest) =
      (name.replaceNul ++ (Name.read rest).1, (Name.read rest).2) := by
  cases name with
  | nil => rfl
  | cons c name =>
      by_cases digit : c.isDigit
      · have small : c.toNat < 0x100000 := by
          rw [Char.isDigit_iff_toNat] at digit
          exact Nat.lt_of_le_of_lt digit.2 (by decide)
        obtain ⟨more, hmore, hread⟩ := Escape.read_byNumber small (Name.written name ++ rest)
        have whole : (tail (c :: name)).flatten = '\\' :: (more ++ Name.written name) := by
          rw [tail, if_pos digit, List.flatten_cons, hmore]
          rfl
        rw [whole, List.cons_append, List.append_assoc, Name.read_of_escape hread,
          Name.read_written]
        rfl
      · rw [tail, if_neg digit]
        exact Name.read_written (c :: name) rest

theorem begins_tail (c : Char) (name rest : Text) :
    Name.Begins ((tail (c :: name)).flatten ++ rest) := by
  have nonempty : (tail (c :: name)).flatten ≠ [] := by
    rcases tail_cases c name with ⟨_, _, whole⟩ | ⟨more, whole⟩ <;> simp [whole]
  refine ⟨Name.continuesName_of_read nonempty (by rw [read_tail]), ?_⟩
  rcases tail_cases c name with ⟨_, notDigit, whole⟩ | ⟨more, whole⟩
  · simp [whole, notDigit]
  · simp [whole]

/-- An identifier is read back, with the name that stands behind it, if one does. -/
@[simp] theorem read_written (name rest : Text) :
    Name.read (written name ++ rest) =
      (name.replaceNul ++ (Name.read rest).1, (Name.read rest).2) := by
  by_cases empty : name = []
  · rw [empty]
    rfl
  obtain rfl | ⟨more, rfl⟩ | ⟨c, more, plain, rfl⟩ | ⟨c, more, plain, rfl⟩ := cases_of_ne_nil empty
  · exact Name.read_of_escape (Escape.read_byItself (by decide) (by decide) rest)
  · rw [written_hyphens, List.cons_append, List.cons_append, Name.read_of_name (by decide),
      Name.read_of_name (by decide), Name.read_written]
    rfl
  · rw [written_of_hyphen plain, List.cons_append, Name.read_of_name (by decide), read_tail]
    rfl
  · rw [written_of_ne plain, read_tail]

/-- What is written as an identifier starts one. -/
theorem startsIdentifier_written {name : Text} (nonempty : name ≠ []) (rest : Text) :
    (Lookahead.ofText (written name ++ rest)).startsIdentifier := by
  rw [Name.startsIdentifier_iff]
  obtain rfl | ⟨more, rfl⟩ | ⟨c, more, plain, rfl⟩ | ⟨c, more, plain, rfl⟩ :=
    cases_of_ne_nil nonempty
  · rw [written_hyphen, List.cons_append, List.singleton_append, Name.begins_cons_iff,
      Escape.read_byItself (by decide) (by decide)]
    exact ⟨.inr (.inr ⟨rfl, rfl⟩), by simp⟩
  · exact ⟨(Name.begins_cons_iff _ _).mpr (.inr (.inl rfl)), fun _ =>
      (Name.begins_cons_iff _ _).mpr (.inr (.inl rfl))⟩
  · rw [written_of_hyphen plain]
    exact ⟨(Name.begins_cons_iff _ _).mpr (.inr (.inl rfl)), fun _ => begins_tail c more rest⟩
  · rw [written_of_ne plain]
    refine ⟨begins_tail c more rest, fun hyphen => ?_⟩
    rcases tail_cases c more with ⟨_, _, whole⟩ | ⟨more, whole⟩
    · simp [whole, plain] at hyphen
    · simp [whole] at hyphen

/-- What is written as an identifier is no closing mark, unless two hyphens stand before its last
code point. -/
theorem not_cdcMark_written {name rest : Text} (nonempty : name ≠ [])
    (notMark : name = ['-', '-'] → rest.head? ≠ some '>') :
    ¬cdcMark.isPrefixOf (written name ++ rest) := by
  rw [ List.isPrefixOf_iff_prefix]
  rintro ⟨after, mark⟩
  obtain rfl | ⟨more, rfl⟩ | ⟨c, more, plain, rfl⟩ | ⟨c, more, plain, rfl⟩ :=
    cases_of_ne_nil nonempty
  · simp [cdcMark] at mark
  · cases more with
    | nil =>
        apply notMark rfl
        cases rest with
        | nil => simp [cdcMark, Name.written_eq, Escape.replace] at mark
        | cons d rest =>
            simp [cdcMark, Name.written_eq, Escape.replace] at mark
            exact congrArg some mark.1.symm
    | cons d more =>
        rcases Name.form_cases d with ⟨name, form⟩ | ⟨escape, form⟩
        · simp [cdcMark, form] at mark
          rw [← mark.1] at name
          exact absurd name (by decide)
        · simp [cdcMark, form] at mark
  · rcases tail_cases c more with ⟨_, _, whole⟩ | ⟨escape, whole⟩
    · simp [cdcMark, written_of_hyphen plain, whole, Ne.symm plain] at mark
    · simp [cdcMark, written_of_hyphen plain, whole] at mark
  · rcases tail_cases c more with ⟨_, _, whole⟩ | ⟨escape, whole⟩
    · simp [cdcMark, written_of_ne plain, whole, Ne.symm plain] at mark
    · simp [cdcMark, written_of_ne plain, whole] at mark

@[simp] theorem isNormal_tail (name : Text) : Text.IsNormal (tail name).flatten := by
  cases name with
  | nil => simp [tail]
  | cons c name =>
      rw [tail]
      split
      · exact Text.isNormal_append.mpr ⟨Escape.isNormal_byNumber c, Name.isNormal_written name⟩
      · exact Name.isNormal_written (c :: name)

@[simp] theorem isNormal_written (name : Text) : (written name).IsNormal := by
  by_cases empty : name = []
  · rw [empty]
    exact isNormal_tail []
  obtain rfl | ⟨more, rfl⟩ | ⟨c, more, plain, rfl⟩ | ⟨c, more, plain, rfl⟩ := cases_of_ne_nil empty
  · simp
  · simp
  · rw [written_of_hyphen plain]
    simp
  · rw [written_of_ne plain]
    exact isNormal_tail _

end Identifier

namespace Name

/-- What begins a name begins neither a number nor anything that one code point settles. -/
theorem Begins.first {c : Char} {rest : Text} (h : Begins (c :: rest)) :
    Lexeme.Open c ∧ c.isDigit = false ∧ c ≠ '.' ∧ c ≠ '+' := by
  have notDigit : c.isDigit = false := h.2 c rfl
  rcases (begins_cons_iff c rest).mp h with start | rfl | ⟨rfl, _⟩
  · refine ⟨Lexeme.open_of_isName (by simp [isName, start]), notDigit, ?_, ?_⟩ <;> rintro rfl <;>
      simp [isNameStart] at start
  · exact ⟨⟨rfl, by decide, rfl⟩, notDigit, by decide, by decide⟩
  · exact ⟨⟨rfl, by decide, rfl⟩, notDigit, by decide, by decide⟩

theorem not_startsNumber {c : Char} {rest : Text}
    (identifier : (Lookahead.ofText (c :: rest)).startsIdentifier) :
    ¬(Lookahead.ofText (c :: rest)).startsNumber := by
  obtain ⟨begins, hyphen⟩ := (startsIdentifier_iff _).mp identifier
  obtain ⟨_, notDigit, notPoint, notPlus⟩ := begins.first
  by_cases isHyphen : c = '-'
  · subst isHyphen
    have behind : Begins rest := hyphen rfl
    cases rest with
    | nil => simp [Lookahead.ofText, Lookahead.startsNumber]
    | cons d rest =>
        obtain ⟨_, notDigit, notPoint, _⟩ := behind.first
        simp [Lookahead.ofText, Lookahead.startsNumber, notDigit, notPoint]
  · simp [Lookahead.ofText, Lookahead.startsNumber, notDigit, notPoint, notPlus, isHyphen]

end Name

/-- Where an identifier starts, and no closing mark, it is read. -/
theorem Lexeme.read_of_startsIdentifier {text : Text}
    (identifier : (Lookahead.ofText text).startsIdentifier) (mark : ¬cdcMark.isPrefixOf text) :
    read text = readIdentLike text := by
  cases text with
  | nil => simp [Lookahead.startsIdentifier, Lookahead.ofText] at identifier
  | cons c rest =>
      have first := ((Name.startsIdentifier_iff _).mp identifier).1.first
      exact read_of_identifier first.1 (Name.not_startsNumber identifier) mark identifier

end CssSyntax
