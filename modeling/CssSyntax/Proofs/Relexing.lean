import CssSyntax.Proofs.Casing
import CssSyntax.Proofs.Locality
import CssSyntax.Proofs.NormalForm
import CssSyntax.Proofs.Tokens

/-!
Reading a token again, alone: the text of a token has all that decides it, with two exceptions. A
broken string is one because of the line feed behind it, and `url(` is a function because of the
quote behind it.
-/

namespace CssSyntax

open CodePoint Text

theorem Text.Near.starts {next rest : Text} (h : Near next rest) (front : Text)
    (start : front <+: next) (short : front.length ≤ 3) : front <+: rest :=
  (List.prefix_take_iff.mpr ⟨start, short⟩).trans h

theorem Text.Near.cdcMark {next rest : Text} (h : Near next rest) (mark : cdcMark.isPrefixOf next) :
    cdcMark.isPrefixOf rest := by
  rw [ List.isPrefixOf_iff_prefix] at mark ⊢
  exact h.starts _ mark (by decide)

theorem Exponent.read_eq_none_of_near {next rest : Text} (near : Near next rest)
    (h : read rest = none) : read next = none := by
  cases hnext : read next with
  | none => rfl
  | some found =>
      obtain ⟨e, behind⟩ := found
      obtain ⟨rfl, wf, _⟩ := read_eq_some_iff.mp hnext
      obtain ⟨mark, sign, digits⟩ := e
      obtain ⟨d, more, rfl⟩ := List.exists_cons_of_ne_nil wf.some_digit
      have digit : d.isDigit := wf.digits d List.mem_cons_self
      have short : (mark :: (sign.toList ++ [d])).length ≤ 3 := by cases sign <;> simp
      obtain ⟨tail, rfl⟩ := near.starts (mark :: (sign.toList ++ [d]))
        ⟨more ++ behind, by simp [Exponent.text]⟩ short
      have unsigned : splitSign (sign.toList ++ (d :: tail)) = (sign, d :: tail) := by
        apply splitSign_append wf.sign
        rintro _ c ⟨⟩
        obtain ⟨notPlus, notMinus, _⟩ := digit_not_sign digit
        exact ⟨notPlus, notMinus⟩
      simp [read, unsigned, digit, wf.mark] at h

theorem Numeral.readFraction_of_near {next rest : Text} (near : Near next rest)
    (h : readFraction rest = ([], rest)) : readFraction next = ([], next) := by
  have missing : (readFraction next).1 = [] := by
    refine Decidable.byContradiction fun found => ?_
    obtain ⟨point, digit⟩ := (readFraction_ne_nil_iff next).mp found
    have still : (readFraction rest).1 ≠ [] := (readFraction_ne_nil_iff rest).mpr
      ⟨near.head point, Lookahead.any_mono (near.getElem?_eq (by decide)) digit⟩
    exact still (congrArg Prod.fst h)
  exact Prod.ext missing (readFraction_of_eq_nil missing)

theorem Numeral.EndsBefore.near {n : Numeral} {next rest : Text} (h : n.EndsBefore rest)
    (near : Near next rest) : n.EndsBefore next :=
  ⟨near.stopsAt h.digits,
    fun noExponent => Exponent.read_eq_none_of_near near (h.exponent noExponent),
    fun noExponent noFraction => readFraction_of_near near (h.fraction noExponent noFraction)⟩

namespace Lexeme

theorem local_readNumeric (n : Numeral) (text : Text) :
    Local (readNumeric n) (fun next => { readNumeric n text with rest := next }) text
      (readNumeric n text).rest := by
  by_cases percent : text.head? = some '%'
  · obtain ⟨rest, rfl⟩ := List.head?_eq_some_iff.mp percent
    rw [readNumeric_percentage]
    exact .front ['%'] fun next _ _ => readNumeric_percentage n next
  · by_cases start : (Lookahead.ofText text).startsIdentifier
    · obtain ⟨front, split, hfront⟩ := Name.local_read text
      rw [readNumeric_dimension n start]
      refine ⟨front, split, fun next near _ => ?_⟩
      have hnext := hfront next near trivial
      have unit : (Lookahead.ofText (front ++ next)).startsIdentifier :=
        Name.startsIdentifier_front (split ▸ start) (by rw [← split]) (by rw [hnext])
      rw [readNumeric_dimension n unit, hnext]
    · rw [readNumeric_number n percent start]
      exact .front [] fun next near _ => readNumeric_number n
        (mt near.head percent) (mt near.startsIdentifier start)

/-- What a lexeme needs behind it in order to be what it is, if its own text does not settle it. -/
structure Followed (lexeme : Lexeme) (next : Text) : Prop where
  lineFeed : lexeme.kind = .badString → next.head? = some '\n'
  quote : lexeme.kind = .function → isUrlName lexeme.value →
    (next.dropWhile isWhitespace).head? = some '"' ∨
      (next.dropWhile isWhitespace).head? = some '\''

theorem local_readString (quote : Char) (text : Text) :
    LocalIf (readString quote text).lexeme.Followed (readString quote)
      (fun next => { readString quote text with rest := next }) text
      (readString quote text).rest := by
  let give (inner : Quoted.Reading) : Scanned :=
    { lexeme :=
        { kind := if inner.ending = .lineFeed then .badString else .string, value := inner.content }
      unterminated := if inner.ending = .endOfInput then some .string else none
      rest := inner.rest }
  have inner : LocalIf (readString quote text).lexeme.Followed (Quoted.read quote)
      (fun next => { Quoted.read quote text with rest := next }) text
      (Quoted.read quote text).rest :=
    (Quoted.local_read quote text).weaken fun _ followed feed => followed.lineFeed (if_pos feed)
  exact inner.behind [] give fun _ _ => rfl

theorem local_readUrl {name : Text} (isUrl : isUrlName name) (text : Text) :
    LocalIf (readUrl name text).lexeme.Followed (readUrl name)
      (fun next => { readUrl name text with rest := next }) text (readUrl name text).rest := by
  by_cases quote : (text.dropWhile isWhitespace).head? = some '"' ∨
      (text.dropWhile isWhitespace).head? = some '\''
  · rw [readUrl_function name quote]
    exact .front [] fun next _ followed => readUrl_function name (followed.quote rfl isUrl)
  · let give (inner : Url.Reading) : Scanned :=
      { lexeme := { kind := if inner.good then .url else .badUrl, value := inner.content }
        rest := inner.rest }
    have blanks : ∀ c ∈ text.takeWhile isWhitespace, isWhitespace c := fun _ => of_mem_takeWhile
    have step (next : Text) (near : Near next (text.dropWhile isWhitespace)) :
        readUrl name (text.takeWhile isWhitespace ++ next) = give (Url.read next) := by
      have drops := dropWhile_run blanks (near.stopsAt (stopsAt_dropWhile _ _))
      rw [readUrl_url, drops]
      rw [drops]
      exact mt (Or.imp near.head near.head) quote
    have inner := (Url.local_read (text.dropWhile isWhitespace)).behind
      (text.takeWhile isWhitespace) give step
    rw [List.takeWhile_append_dropWhile] at inner
    rw [readUrl_url name quote]
    exact inner.weaken fun _ _ => trivial

theorem local_identLike {c : Char} {rest : Text} (start : Open c)
    (number : ¬(Lookahead.ofText (c :: rest)).startsNumber)
    (mark : ¬cdcMark.isPrefixOf (c :: rest))
    (identifier : (Lookahead.ofText (c :: rest)).startsIdentifier) :
    LocalIf (readIdentLike (c :: rest)).lexeme.Followed read
      (fun next => { readIdentLike (c :: rest) with rest := next }) (c :: rest)
      (readIdentLike (c :: rest)).rest := by
  obtain ⟨front, split, hfront⟩ := Name.local_read (c :: rest)
  have hread (next : Text) (near : Near next (Name.read (c :: rest)).2) :
      read (front ++ next) = readIdentLike (front ++ next) := by
    have again : (Lookahead.ofText (front ++ next)).startsIdentifier :=
      Name.startsIdentifier_front (split ▸ identifier) (by rw [← split])
        (by rw [hfront next near trivial])
    have ahead := near.append front
    rw [← split] at ahead
    have name := Lookahead.continuesName_of_startsIdentifier identifier
    rw [split] at name
    obtain ⟨d, tail, rfl⟩ := List.exists_cons_of_ne_nil (Name.continuesName_front name
      (by rw [← split]) (by rw [hfront next near trivial])).1
    cases (List.cons.inj split).1
    exact (Reading.identLike start (mt ahead.startsNumber number) (mt ahead.cdcMark mark)
      again).read_eq
  generalize c :: rest = text at *
  by_cases call : (Name.read text).2.head? = some '('
  · obtain ⟨rest, hrest⟩ := List.head?_eq_some_iff.mp call
    rw [hrest] at split hfront hread
    have hcall (next : Text) (near : Near next rest) :
        read ((front ++ ['(']) ++ next) =
          if isUrlName (Name.read text).1 then readUrl (Name.read text).1 next
          else { lexeme := { kind := .function, value := (Name.read text).1 }, rest := next } := by
      have hname := hfront _ (near.cons '(') trivial
      rw [List.append_assoc, List.singleton_append, hread _ (near.cons '('),
        readIdentLike_call (congrArg Prod.snd hname), hname]
    rw [readIdentLike_call hrest]
    by_cases isUrl : isUrlName (Name.read text).1
    · rw [if_pos isUrl]
      have inner := (local_readUrl isUrl rest).behind (front ++ ['(']) id
        fun next near => (hcall next near).trans (if_pos isUrl)
      rw [List.append_assoc, List.singleton_append, ← split] at inner
      exact inner
    · rw [if_neg isUrl]
      exact ⟨front ++ ['('], by rw [List.append_assoc]; exact split,
        fun next near _ => (hcall next near).trans (if_neg isUrl)⟩
  · rw [readIdentLike_ident call]
    refine ⟨front, split, fun next near _ => ?_⟩
    have hname := hfront next near trivial
    rw [hread next near, readIdentLike_ident, hname]
    rw [hname]
    exact mt near.head call

theorem StandsAlone.near {c : Char} {next rest : Text} (alone : StandsAlone c rest)
    (near : Near next rest) : StandsAlone c next := by
  refine ⟨alone.toOpen, ?_, ?_, ?_, ?_, ?_, ?_, ?_⟩
  · exact mt (near.cons c).startsNumber alone.number
  · exact mt (near.cons c).cdcMark alone.mark
  · exact mt (near.cons c).startsIdentifier alone.identifier
  · exact fun slash => mt near.head (alone.slash slash)
  · intro less ahead
    obtain ⟨after, rfl⟩ := Lookahead.eq_of_ofText ahead
    obtain ⟨behind, rfl⟩ := near.starts ['!', '-', '-'] ⟨after, rfl⟩ (by decide)
    exact alone.less less rfl
  · exact fun hash => mt near.continuesName (alone.hash hash)
  · exact fun commercialAt => mt near.startsIdentifier (alone.commercialAt commercialAt)

/-- How a lexeme is read, and how far, depends only on the next three code points behind it, and
on what `Followed` says. -/
theorem local_read (text : Text) :
    LocalIf (read text).lexeme.Followed read (fun next => { read text with rest := next }) text
      (read text).rest := by
  have reading := reading_read text
  generalize read text = scanned at reading ⊢
  cases reading with
  | endOfInput =>
      refine .front [] fun next near _ => ?_
      rw [eq_nil_of_near_nil near]
      rfl
  | @whitespace c rest blank =>
      have blanks : ∀ d ∈ rest.takeWhile isWhitespace, isWhitespace d := fun _ => of_mem_takeWhile
      have stops := stopsAt_dropWhile isWhitespace rest
      refine ⟨c :: rest.takeWhile isWhitespace, ?_, fun next near _ => ?_⟩
      · rw [List.cons_append, List.takeWhile_append_dropWhile]
      · rw [List.cons_append, read_of_blank blank, takeWhile_run blanks (near.stopsAt stops),
          dropWhile_run blanks (near.stopsAt stops)]
  | @string c rest quote =>
      exact (local_readString c rest).behind [c] id fun next _ => read_of_quote quote next
  | @symbol c kind rest symbol => exact .front [c] fun next _ _ => read_of_symbol symbol next
  | @numeric c rest after n start numeral =>
      obtain ⟨split, wf, ends⟩ := Numeral.read_eq_some_iff.mp numeral
      have step (next : Text) (near : Near next after) :
          read (n.text ++ next) = id (readNumeric n next) := by
        have again : Numeral.read (n.text ++ next) = some (n, next) :=
          Numeral.read_eq_some_iff.mpr ⟨rfl, wf, ends.near near⟩
        obtain ⟨d, tail, htail⟩ := List.exists_cons_of_ne_nil (Numeral.text_ne_nil wf)
        rw [htail] at split again ⊢
        cases split
        exact read_of_numeral start again
      have inner := (local_readNumeric n after).behind n.text id step
      rw [← split] at inner
      exact inner.weaken fun _ _ => trivial
  | @cdc rest => exact .front cdcMark fun next _ _ => read_of_cdc next
  | @identLike c rest start number mark identifier =>
      exact local_identLike start number mark identifier
  | @comment inside =>
      let give (inner : Comment.Reading) : Scanned :=
        { lexeme := { kind := .comment, value := inner.content }
          unterminated := if inner.closed then none else some .comment
          rest := inner.rest }
      have inner := (Comment.local_read inside).behind ['/', '*'] give
        fun next _ => (Reading.comment.read_eq : read ('/' :: '*' :: next) = _)
      exact inner.weaken fun _ _ => trivial
  | @cdo rest =>
      exact .front cdoMark fun next _ _ => Reading.cdo.read_eq
  | @hash rest name =>
      obtain ⟨front, split, hfront⟩ := Name.local_read rest
      refine ⟨'#' :: front, congrArg _ split, fun next near _ => ?_⟩
      have hname := hfront next near trivial
      have hrest : (Name.read (front ++ (Name.read rest).2)).2 = (Name.read rest).2 := by
        rw [← split]
      have hnext : (Name.read (front ++ next)).2 = next := by rw [hname]
      have again := (Name.continuesName_front (split ▸ name) hrest hnext).2
      have idLike := Name.startsIdentifier_eq near hrest hnext
      rw [← split] at idLike
      rw [List.cons_append, (Reading.hash again).read_eq, hname, idLike]
  | @atKeyword rest identifier =>
      obtain ⟨front, split, hfront⟩ := Name.local_read rest
      refine ⟨'@' :: front, congrArg _ split, fun next near _ => ?_⟩
      have hname := hfront next near trivial
      have again : (Lookahead.ofText (front ++ next)).startsIdentifier :=
        Name.startsIdentifier_front (split ▸ identifier) (by rw [← split]) (by rw [hname])
      rw [List.cons_append, (Reading.atKeyword again).read_eq, hname]
  | @delim c rest alone =>
      exact .front [c] fun next near _ => (Reading.delim (alone.near near)).read_eq

/-- A lexeme that needs nothing behind it is read again from its own text, with nothing left. -/
theorem read_representation {text : Text} (alone : (read text).lexeme.Followed [])
    (start : Position) :
    read ((read text).token text start).representation = { read text with rest := [] } := by
  obtain ⟨front, split, hfront⟩ := local_read text
  have whole := (Scanned.representation_append text start).trans split
  have again := hfront [] (near_nil _) alone
  rw [List.append_nil] at again
  rw [List.append_cancel_right whole]
  exact again

end Lexeme

/-- A token read again from its own text is the same token, and the only one. -/
theorem tokenize_representation {input : Text} {token : Token} (mem : token ∈ tokenize input)
    (notEnd : token.kind ≠ .endOfInput) (notBroken : token.kind ≠ .badString)
    (notUrl : token.kind = .function → token.value.lower ≠ ['u', 'r', 'l']) :
    tokenize token.representation =
      [{ token with start := .start }, endToken (.after .start token.representation)] := by
  obtain ⟨found, hfound, rfl⟩ := List.mem_map.mp mem
  obtain ⟨front, behind, place, split, nonempty, rfl⟩ := exists_read_of_mem hfound notEnd
  have alone : (Lexeme.read behind).lexeme.Followed [] :=
    ⟨fun broken => absurd broken notBroken, fun function isUrl =>
      absurd ((isUrlName_iff _).mp isUrl) (notUrl function)⟩
  have whole := Scanned.representation_append behind place
  have again := Lexeme.read_representation alone place
  have taken := Scanned.representation_ne_nil nonempty place
  have normal : ((Lexeme.read behind).token behind place).representation.IsNormal := by
    intro c hc
    refine Units.isNormal_normalize (Units.ofText input) c ?_
    rw [split, ← whole]
    simp [hc]
  rw [tokenize, Units.normalize_ofText normal, tokensFrom_of_whole taken (by rw [again]), again]
  rfl

/-- A less-than sign that begins no mark is a delimiter, behind which anything may stand. -/
theorem tokenize_representation_less :
    let less : Token := ⟨{ kind := .delim, value := ['<'] }, ['<'], .start⟩
    less ∈ tokenize ['<', '!', '-', 'x'] ∧
      tokenize less.representation =
        [{ less with start := .start }, endToken (.after .start less.representation)] := by
  intro less
  have mem : less ∈ tokenize ['<', '!', '-', 'x'] := by
    rw [tokenize, Units.normalize_ofText (by simp),
      tokensFrom_of_ne_nil (by decide)]
    exact List.mem_cons_self
  exact ⟨mem, tokenize_representation mem (by decide) (by decide) (by decide)⟩

end CssSyntax
