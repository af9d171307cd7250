import CssSyntax.Proofs.Spans
import CssSyntax.Proofs.Starts
import CssSyntax.Reader.Lexeme

/-!
Reading a lexeme from a source gives the lexeme at the front of the text that the source holds.
-/

namespace CssSyntax.Reader

theorem yields_skip (n : Nat) (r : Reader) : Yields (skip n) r () (r.text.drop n) := by
  induction n generalizing r with
  | zero => exact yields_pure r ()
  | succ n ih =>
      refine (yields_next r).bind fun s _ hs => ?_
      rw [← List.drop_tail, ← hs]
      exact ih s

theorem yields_sign (r : Reader) :
    Yields sign r (splitSign r.text).1.toList (splitSign r.text).2 := by
  cases h : r.text with
  | nil =>
      refine (yields_next_of_nil h).bind fun s moves hs => ?_
      refine (yields_unread moves (by simp [h, hs])).bind fun t _ ht => ?_
      simpa [splitSign, ht, h] using yields_pure t ([] : Text)
  | cons c rest =>
      refine (yields_next_of_cons h).bind fun s moves hs => ?_
      by_cases isSign : c = '+' ∨ c = '-'
      · simpa [splitSign, isSign, hs] using yields_pure s [c]
      · simp only [Option.some.injEq, isSign, if_false]
        refine (yields_unread moves (by simp [h, hs])).bind fun t _ ht => ?_
        simpa [splitSign, isSign, ht, h] using yields_pure t ([] : Text)

theorem yields_fraction (r : Reader) :
    Yields fraction r
      (if (Numeral.readFraction r.text).1 = [] then []
        else '.' :: (Numeral.readFraction r.text).1)
      (Numeral.readFraction r.text).2 := by
  refine (yields_peek3 r).bind fun s _ hs => ?_
  have found := Numeral.readFraction_ne_nil_iff r.text
  by_cases point : r.text.head? = some '.' ∧ r.text[1]?.any Char.isDigit
  · cases h : r.text with
    | nil => simp [h] at point
    | cons c rest =>
        rw [h] at point hs
        obtain rfl : c = '.' := Option.some.inj point.1
        have some_digit : rest.takeWhile Char.isDigit ≠ [] :=
          (Numeral.takeWhile_digit_ne_nil_iff rest).mpr
            (by simpa [List.head?_eq_getElem?] using point.2)
        have ahead : (Lookahead.ofText ('.' :: rest)).first = some '.' ∧
            (Lookahead.ofText ('.' :: rest)).second.any Char.isDigit := by
          simpa [Lookahead.ofText] using point.2
        rw [if_pos ahead]
        refine (yields_next_of_cons hs).bind fun t _ ht => ?_
        refine (yields_takeWhile Char.isDigit [] t).bind fun u _ hu => ?_
        rw [ht] at hu
        simpa [Numeral.readFraction, some_digit, ht, hu] using
          yields_pure u ('.' :: rest.takeWhile Char.isDigit)
  · have noFraction : (Numeral.readFraction r.text).1 = [] := not_ne_iff.mp (mt found.mp point)
    have ahead : ¬((Lookahead.ofText r.text).first = some '.' ∧
        (Lookahead.ofText r.text).second.any Char.isDigit) := by
      simpa [Lookahead.ofText, List.head?_eq_getElem?] using point
    rw [if_neg ahead, noFraction, Numeral.readFraction_of_eq_nil noFraction, if_pos rfl]
    exact yields_pure_of_text hs []

theorem yields_skip_digits (n : Nat) (front : Text) (r : Reader) :
    Yields (do
      skip n
      let digits ← takeWhile Char.isDigit []
      return front ++ digits) r (front ++ (r.text.drop n).takeWhile Char.isDigit)
      ((r.text.drop n).dropWhile Char.isDigit) := by
  refine (yields_skip n r).bind fun s _ hs => ?_
  refine (yields_takeWhile Char.isDigit [] s).bind fun t _ ht => ?_
  rw [hs] at ht ⊢
  exact yields_pure_of_text ht _

theorem yields_exponent (r : Reader) :
    Yields exponent r (((Exponent.read r.text).map fun found => found.1.text).getD [])
      (((Exponent.read r.text).map Prod.snd).getD r.text) := by
  refine (yields_peek3 r).bind fun s _ hs => ?_
  rw [← hs]
  have announced := Exponent.announced s.text
  generalize htext : s.text = text at announced
  cases announced with
  | @signed mark sign rest isMark isSign digit =>
      have taken := yields_skip_digits 2 [mark, sign] s
      rw [htext] at taken
      rw [Exponent.read_signed isMark isSign digit]
      rw [List.head?_eq_getElem?] at digit
      simpa [Lookahead.ofText, isMark, isSign, digit, Exponent.text] using taken
  | @unsigned mark c rest isMark digit =>
      have taken := yields_skip_digits 1 [mark] s
      rw [htext] at taken
      have notSign := Exponent.not_sign_of_isDigit digit
      rw [Exponent.read_unsigned isMark digit]
      simpa [Lookahead.ofText, isMark, notSign, digit, Exponent.text] using taken
  | absent unread missing =>
      have nothing := yields_pure_of_text htext ([] : Text)
      rw [unread]
      simp only [Lookahead.ofText, ← List.head?_eq_getElem?]
      by_cases isMark : text.head? = some 'e' ∨ text.head? = some 'E'
      · obtain ⟨notSigned, notUnsigned⟩ := missing isMark
        rw [if_pos isMark, if_neg notSigned, if_neg notUnsigned]
        exact nothing
      · rw [if_neg isMark]
        exact nothing

theorem yields_literalValue {n : Numeral} (wf : n.WellFormed) (r : Reader) :
    Yields (literalValue n.text) r n.value r.text := by
  rw [literalValue, Numeral.valueOf?_canonical_text wf]
  exact yields_pure r n.value

/-- The parts of a numeral as they are taken one after another. -/
theorem numeral_parts {text rest : Text} {n : Numeral} (h : Numeral.read text = some (n, rest)) :
    let signed := splitSign text
    let fraction := Numeral.readFraction (signed.2.dropWhile Char.isDigit)
    n.sign = signed.1 ∧ n.whole = signed.2.takeWhile Char.isDigit ∧ n.fraction = fraction.1 ∧
      n.exponent = (Exponent.read fraction.2).map Prod.fst ∧
      rest = ((Exponent.read fraction.2).map Prod.snd).getD fraction.2 := by
  simp only [Numeral.read] at h
  split at h
  · cases h
  · split at h <;> next he => cases h; simp [he]

/-- The texts of the parts of a numeral show whether it is an integer, and whether it has a sign. -/
theorem payload_of_parts (n : Numeral) (unit : Option Text) :
    ({ value := n.value
       isInteger := (if n.fraction = [] then [] else '.' :: n.fraction).isEmpty &&
         ((n.exponent.map Exponent.text).getD []).isEmpty
       hasSign := !n.sign.toList.isEmpty
       unit := unit } : Numeric) = Lexeme.payload n unit := by
  have integer : ((if n.fraction = [] then [] else '.' :: n.fraction).isEmpty &&
      ((n.exponent.map Exponent.text).getD []).isEmpty) = n.isInteger := by
    rw [Numeral.isInteger]
    congr 1
    · cases n.fraction <;> rfl
    · cases n.exponent <;> rfl
  have signed : (!n.sign.toList.isEmpty) = n.hasSign := by
    rw [Numeral.hasSign]
    cases n.sign <;> rfl
  rw [integer, signed]
  rfl

/-- What follows a numeral decides which kind of number it is. -/
theorem yields_unit (n : Numeral) (r : Reader) :
    Yields (do
      let ahead ← peek3
      if ahead.first = some '%' then
        skip 1
        return (⟨.percentage, n.text ++ ['%'], some (Lexeme.payload n none), false⟩, none)
      else if ahead.startsIdentifier then
        let unit ← name []
        return (⟨.dimension, n.text ++ unit, some (Lexeme.payload n unit), false⟩, none)
      else return (⟨.number, n.text, some (Lexeme.payload n none), false⟩, none)) r
      ((Lexeme.readNumeric n r.text).lexeme, (none : Option Unterminated))
      (Lexeme.readNumeric n r.text).rest := by
  refine (yields_peek3 r).bind fun s _ hs => ?_
  have first : (Lookahead.ofText r.text).first = r.text.head? := by
    simp [Lookahead.ofText, List.head?_eq_getElem?]
  rw [Lexeme.readNumeric, first]
  by_cases percent : r.text.head? = some '%'
  · simp only [percent, if_true]
    refine (yields_skip 1 s).bind fun t _ ht => ?_
    rw [hs] at ht
    exact yields_pure_of_text ht _
  · simp only [percent, if_false]
    by_cases unit : (Lookahead.ofText r.text).startsIdentifier
    · simp only [unit, if_true]
      refine (yields_name [] s).bind fun t _ ht => ?_
      rw [hs] at ht ⊢
      exact yields_pure_of_text ht _
    · simp only [unit]
      exact yields_pure_of_text hs _

theorem yields_numeric {r : Reader} {n : Numeral} {rest : Text}
    (h : Numeral.read r.text = some (n, rest)) :
    Yields numeric r ((Lexeme.readNumeric n rest).lexeme, none)
      (Lexeme.readNumeric n rest).rest := by
  obtain ⟨hsign, hwhole, hfraction, hexponent, hrest⟩ := numeral_parts h
  have wf := (Numeral.read_eq_some_iff.mp h).2.1
  refine (yields_sign r).bind fun s _ hs => ?_
  refine (yields_takeWhile Char.isDigit [] s).bind fun t _ ht => ?_
  rw [hs] at ht ⊢
  refine (yields_fraction t).bind fun u _ hu => ?_
  rw [ht] at hu ⊢
  refine (yields_exponent u).bind fun v _ hv => ?_
  rw [hu] at hv ⊢
  rw [← hrest] at hv
  have hmark : ((Exponent.read (Numeral.readFraction
      ((splitSign r.text).2.dropWhile Char.isDigit)).2).map fun found => found.1.text).getD [] =
      (n.exponent.map Exponent.text).getD [] := by
    rw [hexponent, Option.map_map]
    rfl
  rw [← hsign, List.reverse_nil, List.nil_append, ← hwhole, ← hfraction, hmark]
  change Yields (literalValue n.text >>= _) v _ _
  refine (yields_literalValue wf v).bind fun w _ hw => ?_
  rw [← hv, ← hw]
  simp only [payload_of_parts]
  exact yields_unit n w

theorem yields_unreadAll {run taken : Text} {r : Reader} (h : r.taken = run.reverse ++ taken) :
    Yields (unreadAll run) r () (run ++ r.text) := by
  induction run generalizing taken with
  | nil => exact yields_pure r ()
  | cons c rest ih =>
      rw [List.reverse_cons, List.append_assoc] at h
      refine (ih h).bind fun s moves hs => ?_
      have htaken : s.taken = c :: taken := by
        have := taken_eq moves.keeps.1.symm hs
        rw [h] at this
        exact (List.append_cancel_left this).symm
      have back := yields_unread_last htaken
      rw [hs] at back
      exact back

/-- A scan takes a lexeme, and leaves what stands behind it. -/
def Reads (scan : Scan Taken) (r : Reader) (scanned : Scanned) : Prop :=
  Yields scan r (scanned.lexeme, scanned.unterminated) scanned.rest

theorem reads_readUrl (name : Text) (r : Reader) :
    Reads (do
      let blanks ← takeWhile CodePoint.isWhitespace []
      let quote ← peek
      if quote = some '"' ∨ quote = some '\'' then
        unreadAll blanks
        return plain .function name
      else
        let (content, good) ← url []
        return plain (if good then .url else .badUrl) content) r (Lexeme.readUrl name r.text) := by
  refine (yields_takeWhile CodePoint.isWhitespace [] r).bind fun s rs hs => ?_
  refine (yields_peek s).bind fun t st ht => ?_
  rw [Lexeme.readUrl, ← hs]
  by_cases quote : s.text.head? = some '"' ∨ s.text.head? = some '\''
  · simp only [quote, if_true, List.reverse_nil, List.nil_append]
    have run : r.text = r.text.takeWhile CodePoint.isWhitespace ++ t.text := by
      rw [ht, hs, List.takeWhile_append_dropWhile]
    have back := yields_unreadAll (taken_eq (rs.trans st).keeps.1 run)
    rw [← run] at back
    refine back.bind fun u _ hu => ?_
    exact yields_pure_of_text hu _
  · simp only [quote, if_false]
    have inner := yields_url [] t
    rw [ht] at inner
    refine inner.bind fun u _ hu => ?_
    exact yields_pure_of_text hu _

theorem reads_identLike (r : Reader) : Reads identLike r (Lexeme.readIdentLike r.text) := by
  refine (yields_name [] r).bind fun s _ hs => ?_
  refine (yields_next s).bind fun t moves ht => ?_
  rw [hs] at ht ⊢
  by_cases call : (Name.read r.text).2.head? = some '('
  · obtain ⟨rest, hrest⟩ := List.head?_eq_some_iff.mp call
    rw [hrest, List.tail_cons] at ht
    rw [Lexeme.readIdentLike_call hrest]
    simp only [call, ne_eq, not_true, if_false, List.reverse_nil, List.nil_append]
    by_cases isUrl : isUrlName (Name.read r.text).1
    · simp only [isUrl, if_true]
      rw [← ht]
      exact reads_readUrl _ t
    · simp only [isUrl]
      exact yields_pure_of_text ht _
  · rw [Lexeme.readIdentLike_ident call]
    simp only [ne_eq, call, not_false_eq_true, if_true]
    refine (yields_unread moves ?_).bind fun u _ hu => ?_
    · rw [hs, ht]
      cases (Name.read r.text).2 <;> rfl
    rw [hs] at hu
    exact yields_pure_of_text hu _

/-- The first code point has been taken to see what starts, and is given back to the numeral. -/
theorem reads_numeral {r s : Reader} {c : Char} (start : Lexeme.Open c) (moves : Moves r s)
    (h : r.text = c :: s.text) (number : (Lookahead.ofText r.text).startsNumber) :
    Reads (unread (some c) >>= fun _ => numeric) s (Lexeme.read r.text) := by
  refine (yields_unread (c := some c) moves h).bind fun t _ ht => ?_
  obtain ⟨⟨n, after⟩, hread⟩ := Option.isSome_iff_exists.mp ((Numeral.startsNumber_iff _).mp number)
  have lexeme : Lexeme.read r.text = Lexeme.readNumeric n after := by
    rw [h] at hread ⊢
    exact Lexeme.read_of_numeral start hread
  have numeral := yields_numeric (by rw [ht, hread])
  rw [lexeme]
  rw [Lexeme.unterminated_readNumeric]
  exact numeral

theorem reads_identifier {r s : Reader} {c : Char} (start : Lexeme.Open c) (moves : Moves r s)
    (h : r.text = c :: s.text) (noNumber : ¬(Lookahead.ofText r.text).startsNumber)
    (noMark : ¬cdcMark.isPrefixOf r.text)
    (identifier : (Lookahead.ofText r.text).startsIdentifier) :
    Reads (unread (some c) >>= fun _ => identLike) s (Lexeme.read r.text) := by
  refine (yields_unread (c := some c) moves h).bind fun t _ ht => ?_
  rw [h] at noNumber noMark identifier
  have lexeme : Lexeme.read r.text = Lexeme.readIdentLike r.text := by
    rw [h, Lexeme.read_of_identifier start noNumber noMark identifier]
  rw [lexeme, ← ht]
  exact reads_identLike t

theorem reads_delim (c : Char) (r : Reader) :
    Reads (pure (delim c)) r (Lexeme.delimited c r.text) :=
  yields_pure r (delim c)

/-- A code point that starts nothing is taken alone. -/
theorem reads_alone {r s : Reader} {c : Char} (start : Lexeme.Open c) (notMark : ¬Lexeme.IsMark c)
    (h : r.text = c :: s.text) (noNumber : ¬(Lookahead.ofText r.text).startsNumber)
    (noMark : ¬cdcMark.isPrefixOf r.text)
    (noIdentifier : ¬(Lookahead.ofText r.text).startsIdentifier) :
    Reads (pure (delim c)) s (Lexeme.read r.text) := by
  rw [h] at noNumber noMark noIdentifier ⊢
  rw [Lexeme.read_of_marked start noNumber noMark noIdentifier,
    Lexeme.readMarked_of_not_isMark notMark]
  exact reads_delim c s

theorem reads_comment (r : Reader) :
    Reads (do
      let (content, closed) ← comment false []
      return (⟨.comment, content, none, false⟩, if closed then none else some .comment)) r
      (Lexeme.readComment r.text) := by
  refine (yields_comment false [] r).bind fun s _ hs => ?_
  rw [Lexeme.readComment]
  simp only [Bool.false_eq_true, if_false, List.nil_append, List.reverse_nil] at hs ⊢
  exact yields_pure_of_text hs _

theorem reads_slash (r : Reader) : Reads (lexemeFrom '/') r (Lexeme.read ('/' :: r.text)) := by
  rw [Lexeme.read_of_isMark (.inl rfl)]
  refine (yields_next r).bind fun s moves hs => ?_
  by_cases star : r.text.head? = some '*'
  · obtain ⟨inside, hinside⟩ := List.head?_eq_some_iff.mp star
    rw [hinside, List.tail_cons] at hs
    simp only [star, if_true]
    rw [hinside, ← hs]
    exact reads_comment s
  · simp only [star, if_false]
    rw [Lexeme.readMarked_slash star]
    refine (yields_unread moves ?_).bind fun t _ ht => ?_
    · rw [hs]
      cases r.text <;> rfl
    rw [← ht]
    exact reads_delim '/' t

theorem reads_hash (r : Reader) : Reads (lexemeFrom '#') r (Lexeme.read ('#' :: r.text)) := by
  rw [Lexeme.read_of_isMark (.inr (.inr (.inl rfl)))]
  refine (yields_peek3 r).bind fun s _ hs => ?_
  rw [← hs]
  simp only [Lexeme.readMarked]
  by_cases goesOn : (Lookahead.ofText s.text).continuesName
  · simp only [goesOn, if_true]
    refine (yields_name [] s).bind fun t _ ht => ?_
    exact yields_pure_of_text ht _
  · simp only [goesOn]
    exact reads_delim '#' s

theorem reads_at (r : Reader) : Reads (lexemeFrom '@') r (Lexeme.read ('@' :: r.text)) := by
  rw [Lexeme.read_of_isMark (.inr (.inr (.inr rfl)))]
  refine (yields_peek3 r).bind fun s _ hs => ?_
  rw [← hs]
  simp only [Lexeme.readMarked]
  by_cases identifier : (Lookahead.ofText s.text).startsIdentifier
  · simp only [identifier, if_true]
    refine (yields_name [] s).bind fun t _ ht => ?_
    exact yields_pure_of_text ht _
  · simp only [identifier]
    exact reads_delim '@' s

theorem reads_less (r : Reader) : Reads (lexemeFrom '<') r (Lexeme.read ('<' :: r.text)) := by
  rw [Lexeme.read_of_isMark (.inr (.inl rfl))]
  refine (yields_peek3 r).bind fun s _ hs => ?_
  by_cases mark : Lookahead.ofText r.text = ⟨some '!', some '-', some '-'⟩
  · obtain ⟨after, hafter⟩ := Lookahead.eq_of_ofText mark
    simp only [mark, if_true]
    refine (yields_skip 3 s).bind fun t _ ht => ?_
    rw [hs, hafter] at ht
    rw [hafter]
    simp only [Lexeme.readMarked]
    rw [show after = t.text from ht.symm]
    exact yields_pure t _
  · simp only [mark, if_false]
    rw [Lexeme.readMarked_less mark, ← hs]
    exact reads_delim '<' s

theorem lexemeFrom_quote {quote : Char} (h : quote = '"' ∨ quote = '\'') :
    lexemeFrom quote = (do
      let (content, ending) ← quoted quote []
      return (⟨if ending = .lineFeed then .badString else .string, content, none, false⟩,
          if ending = .endOfInput then some .string else none)) := by
  rcases h with rfl | rfl <;> rfl

section Starts

variable {r s : Reader}

theorem reads_plus (moves : Moves r s) (h : r.text = '+' :: s.text) :
    Reads (lexemeFrom '+') s (Lexeme.read r.text) := by
  have start : Lexeme.Open '+' := ⟨by decide, by decide, by decide⟩
  refine (yields_peek3 s).bind fun t st ht => ?_
  rw [← ht] at h ⊢
  rw [← Lookahead.ofText_cons, ← h]
  by_cases number : (Lookahead.ofText r.text).startsNumber
  · simp only [number, if_true]
    exact reads_numeral start (moves.trans st) h number
  · simp only [number]
    refine reads_alone start (by simp [Lexeme.IsMark]) h number (by simp [h, cdcMark]) ?_
    simp [h, Lookahead.ofText, Lookahead.startsIdentifier, CodePoint.isNameStart]

theorem reads_point (moves : Moves r s) (h : r.text = '.' :: s.text) :
    Reads (lexemeFrom '.') s (Lexeme.read r.text) := by
  have start : Lexeme.Open '.' := ⟨by decide, by decide, by decide⟩
  refine (yields_peek s).bind fun t st ht => ?_
  rw [← ht] at h ⊢
  have ahead : (Lookahead.ofText r.text).startsNumber = t.text.head?.any Char.isDigit := by
    simp [h, Lookahead.ofText, Lookahead.startsNumber, List.head?_eq_getElem?]
  rw [← ahead]
  by_cases number : (Lookahead.ofText r.text).startsNumber
  · simp only [number, if_true]
    exact reads_numeral start (moves.trans st) h number
  · simp only [number]
    refine reads_alone start (by simp [Lexeme.IsMark]) h number (by simp [h, cdcMark]) ?_
    simp [h, Lookahead.ofText, Lookahead.startsIdentifier, CodePoint.isNameStart]

theorem reads_backslash (moves : Moves r s) (h : r.text = '\\' :: s.text) :
    Reads (lexemeFrom '\\') s (Lexeme.read r.text) := by
  have start : Lexeme.Open '\\' := ⟨by decide, by decide, by decide⟩
  refine (yields_peek s).bind fun t st ht => ?_
  rw [← ht] at h ⊢
  have noNumber : ¬(Lookahead.ofText r.text).startsNumber := by
    simp [h, Lookahead.ofText, Lookahead.startsNumber]
  have noMark : ¬cdcMark.isPrefixOf r.text := by simp [h, cdcMark]
  have ahead : (Lookahead.ofText r.text).startsIdentifier =
      startsEscape (some '\\') t.text.head? := by
    simp [h, Lookahead.ofText, Lookahead.startsIdentifier, List.head?_eq_getElem?]
  rw [← ahead]
  by_cases identifier : (Lookahead.ofText r.text).startsIdentifier
  · simp only [identifier, if_true]
    exact reads_identifier start (moves.trans st) h noNumber noMark identifier
  · simp only [identifier]
    exact reads_alone start (by simp [Lexeme.IsMark]) h noNumber noMark identifier

theorem reads_minus (moves : Moves r s) (h : r.text = '-' :: s.text) :
    Reads (lexemeFrom '-') s (Lexeme.read r.text) := by
  have start : Lexeme.Open '-' := ⟨by decide, by decide, by decide⟩
  refine (yields_peek3 s).bind fun t st ht => ?_
  rw [← ht] at h ⊢
  rw [← Lookahead.ofText_cons, ← h]
  by_cases number : (Lookahead.ofText r.text).startsNumber
  · simp only [number, if_true]
    exact reads_numeral start (moves.trans st) h number
  · simp only [number]
    have marked := Lexeme.isPrefixOf_cdcMark_iff t.text
    rw [← h] at marked
    by_cases mark : cdcMark.isPrefixOf r.text
    · rw [if_pos (marked.mp mark)]
      refine (yields_skip 2 t).bind fun u _ hu => ?_
      obtain ⟨after, hafter⟩ := List.isPrefixOf_iff_prefix.mp mark
      have htext : t.text = '-' :: '>' :: after := by
        rw [h] at hafter
        exact (List.cons.inj hafter).2.symm
      rw [htext] at hu
      rw [h, htext, Lexeme.read_of_cdc, show after = u.text from hu.symm]
      exact yields_pure u _
    · rw [if_neg (mt marked.mpr mark)]
      by_cases identifier : (Lookahead.ofText r.text).startsIdentifier
      · simp only [identifier, if_true]
        exact reads_identifier start (moves.trans st) h number mark identifier
      · simp only [identifier]
        exact reads_alone start (by simp [Lexeme.IsMark]) h number mark identifier

/-- Blanks, strings, digits, names and symbols start without a second look. -/
theorem reads_other {c : Char} (moves : Moves r s) (h : r.text = c :: s.text)
    (sign : c ≠ '+' ∧ c ≠ '-' ∧ c ≠ '.' ∧ c ≠ '\\') (notMark : ¬Lexeme.IsMark c) :
    Reads (
      if CodePoint.isWhitespace c then do
        let value ← takeWhile CodePoint.isWhitespace [c]
        return plain .whitespace value
      else if c = '"' ∨ c = '\'' then do
        let (content, ending) ← quoted c []
        return (⟨if ending = .lineFeed then .badString else .string, content, none, false⟩,
          if ending = .endOfInput then some .string else none)
      else if c.isDigit then do
        unread (some c)
        numeric
      else if CodePoint.isNameStart c then do
        unread (some c)
        identLike
      else match Kind.ofSymbol? c with
        | some kind => return plain kind [c]
        | none => return delim c) s (Lexeme.read r.text) := by
  obtain ⟨notPlus, notMinus, notPoint, notBackslash⟩ := sign
  have number : (Lookahead.ofText r.text).startsNumber = c.isDigit := by
    simp [h, Lookahead.ofText, Lookahead.startsNumber, notPlus, notMinus, notPoint]
  have identifier : (Lookahead.ofText r.text).startsIdentifier = CodePoint.isNameStart c := by
    simp [h, Lookahead.ofText, Lookahead.startsIdentifier]
  have noMark : ¬cdcMark.isPrefixOf r.text := by
    simp [h, cdcMark, Ne.symm notMinus]
  by_cases blank : CodePoint.isWhitespace c
  · rw [if_pos blank, h, Lexeme.read_of_blank blank]
    refine (yields_takeWhile CodePoint.isWhitespace [c] s).bind fun t _ ht => ?_
    exact yields_pure_of_text ht _
  rw [if_neg blank]
  by_cases quote : c = '"' ∨ c = '\''
  · rw [if_pos quote, h, Lexeme.read_of_quote quote]
    refine (yields_quoted c [] s).bind fun t _ ht => ?_
    rw [Lexeme.readString]
    exact yields_pure_of_text ht _
  rw [if_neg quote]
  by_cases digit : c.isDigit
  · rw [if_pos digit]
    exact reads_numeral (Lexeme.open_of_isName (by simp [CodePoint.isName, digit])) moves h
      (by rw [number, digit])
  rw [if_neg digit]
  by_cases nameStart : CodePoint.isNameStart c
  · rw [if_pos nameStart]
    have start : Lexeme.Open c := Lexeme.open_of_isName (by simp [CodePoint.isName, nameStart])
    exact reads_identifier start moves h
      (by rw [number]; exact digit) noMark (by rw [identifier, nameStart])
  rw [if_neg nameStart]
  cases symbol : Kind.ofSymbol? c with
  | some kind =>
      rw [h, Lexeme.read_of_symbol symbol]
      exact yields_pure s _
  | none =>
      have start : Lexeme.Open c := ⟨by simpa using blank, quote, symbol⟩
      exact reads_alone start notMark h (by rw [number]; exact digit) noMark
        (by rw [identifier]; exact nameStart)

theorem reads_lexemeFrom {c : Char} (moves : Moves r s) (h : r.text = c :: s.text) :
    Reads (lexemeFrom c) s (Lexeme.read r.text) := by
  by_cases mark : Lexeme.IsMark c
  · rw [h]
    rcases mark with rfl | rfl | rfl | rfl
    · exact reads_slash s
    · exact reads_less s
    · exact reads_hash s
    · exact reads_at s
  unfold lexemeFrom
  split
  · exact absurd (.inl rfl) mark
  · exact absurd (.inr (.inr (.inl rfl))) mark
  · exact reads_plus moves h
  · exact reads_minus moves h
  · exact reads_point moves h
  · exact absurd (.inr (.inl rfl)) mark
  · exact absurd (.inr (.inr (.inr rfl))) mark
  · exact reads_backslash moves h
  · next slash hash plus minus point less atSign backslash =>
      exact reads_other moves h ⟨plus, minus, point, backslash⟩ mark

end Starts

/-- Reading from a source is reading the text in front of the reader, unless a failure stops it. -/
theorem reads_lexeme (r : Reader) : Reads lexeme r (Lexeme.read r.text) := by
  cases h : r.text with
  | nil =>
      refine (yields_next_of_nil h).bind fun s _ hs => ?_
      rw [show (Lexeme.read []).rest = s.text from hs.symm]
      exact yields_pure s _
  | cons c rest =>
      refine (yields_next_of_cons h).bind fun s moves hs => ?_
      rw [← h]
      exact reads_lexemeFrom moves (by rw [h, hs])

end CssSyntax.Reader
