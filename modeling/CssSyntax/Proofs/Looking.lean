import CssSyntax.Proofs.Casing
import CssSyntax.Proofs.Lexemes

/-!
How far ahead a scan looks. What a reader has read and given back is read again before anything
else, so a scan reads on only where it looks further than what is already given back. A lexeme looks
three code points ahead of its end at most, apart from the blanks and the quote behind `url(`.
-/

namespace CssSyntax

/-- A lexeme that is the function `url`, with whatever capitals. A string follows it, or else it
would be a url. -/
def Lexeme.CallsUrl (lexeme : Lexeme) : Prop :=
  lexeme.kind = .function ∧ lexeme.value.lower = ['u', 'r', 'l']

instance (lexeme : Lexeme) : Decidable lexeme.CallsUrl := inferInstanceAs (Decidable (_ ∧ _))

/-- Every code point of a name is written with at least one. -/
theorem Name.length_read_add_le (text : Text) :
    (read text).1.length + (read text).2.length ≤ text.length := by
  fun_induction read text with
  | case1 => exact Nat.le_refl _
  | case2 c rest isName inner ih =>
      have ih : inner.1.length + inner.2.length ≤ rest.length := ih
      simp only [List.length_cons]
      omega
  | case3 rest e after hread inner notName ih =>
      have ih : inner.1.length + inner.2.length ≤ after.length := ih
      have := Escape.length_lt_of_read hread
      simp only [List.length_cons]
      omega
  | case4 => simp
  | case5 => simp

namespace Reader

open CodePoint

/-- How far a reader has read from where its token begins. -/
def reach (r : Reader) : Nat := r.taken.length + r.ahead.length

/-- Between two readers nothing is given back that was taken before the first, and what is read on
reaches no more than `far` code points ahead of what the second has taken. -/
structure Looks (far : Nat) (r after : Reader) : Prop where
  taken : r.taken.length ≤ after.taken.length
  reach : after.reach ≤ max r.reach (after.taken.length + far)

variable {r s t after : Reader}

theorem Looks.refl (far : Nat) (r : Reader) : Looks far r r := ⟨Nat.le_refl _, Nat.le_max_left _ _⟩

theorem Looks.trans {far : Nat} (first : Looks far r s) (second : Looks far s after) :
    Looks far r after := by
  obtain ⟨taken, reach⟩ := first
  obtain ⟨taken', reach'⟩ := second
  constructor <;> omega

theorem Looks.mono {near far : Nat} (h : Looks near r after) (le : near ≤ far) :
    Looks far r after := by
  obtain ⟨taken, reach⟩ := h
  constructor <;> omega

/-- How many code points an answer of `next` stands for. -/
def width (c : Option Char) : Nat := c.toList.length

theorem width_le (c : Option Char) : width c ≤ 1 := by
  cases c
  · exact Nat.zero_le 1
  · exact Nat.le_refl 1

@[simp] theorem width_some (c : Char) : width (some c) = 1 := rfl

theorem reach_of_next {c : Option Char} (h : next r = .ok c s) :
    s.taken.length = r.taken.length + width c ∧ s.reach = max r.reach s.taken.length := by
  obtain ⟨input, ahead, taken, position⟩ := r
  cases ahead with
  | cons d ahead =>
      simp only [next] at h
      cases h
      refine ⟨rfl, ?_⟩
      simp only [reach, List.length_cons]
      omega
  | nil =>
      simp only [next] at h
      split at h <;> cases h
      · exact ⟨rfl, by simp [reach]⟩
      · exact ⟨rfl, by simp [reach]⟩

theorem reach_of_unread {c : Option Char} {u : Unit} (h : unread c r = .ok u s) :
    r.taken.length = s.taken.length + width c ∧ s.reach = r.reach := by
  cases c with
  | none =>
      cases h
      exact ⟨rfl, rfl⟩
  | some c =>
      obtain ⟨taken, htaken, rfl⟩ := unread_eq_ok h
      refine ⟨by rw [htaken]; rfl, ?_⟩
      simp only [reach, htaken, List.length_cons]
      omega

/-- What was taken counts as taken, whatever it was. -/
theorem looks_of_next {c : Option Char} (h : next r = .ok c s) (far : Nat) : Looks far r s := by
  obtain ⟨taken, reach⟩ := reach_of_next h
  constructor <;> omega

/-- Giving back what `next` gave is looking one code point ahead. -/
theorem looks_of_unread {c : Option Char} {u : Unit} (hnext : next r = .ok c s)
    (h : unread c s = .ok u after) : Looks 1 r after := by
  obtain ⟨taken, reach⟩ := reach_of_next hnext
  obtain ⟨taken', reach'⟩ := reach_of_unread h
  have one := width_le c
  constructor <;> omega

/-- Most scans end by giving back the code point that does not belong to them. -/
theorem looks_of_given_back {α : Type} {c : Option Char} {a b : α} (hnext : next r = .ok c s)
    (h : (do unread c; return a : Scan α) s = .ok b after) : Looks 1 r after := by
  obtain ⟨_, last, hunread, h⟩ := bind_eq_ok h
  cases h
  exact looks_of_unread hnext hunread

theorem looks_of_peek {c : Option Char} (h : peek r = .ok c after) : Looks 1 r after := by
  obtain ⟨c, s, hnext, h⟩ := bind_eq_ok h
  exact looks_of_given_back hnext h

theorem looks_of_peek3 {ahead : Lookahead} (h : peek3 r = .ok ahead after) : Looks 3 r after := by
  obtain ⟨first, s, hfirst, h⟩ := bind_eq_ok h
  obtain ⟨second, t, hsecond, h⟩ := bind_eq_ok h
  obtain ⟨third, u, hthird, h⟩ := bind_eq_ok h
  obtain ⟨_, v, back, h⟩ := bind_eq_ok h
  obtain ⟨_, w, back', h⟩ := bind_eq_ok h
  obtain ⟨_, x, back'', h⟩ := bind_eq_ok h
  cases h
  have one := width_le first
  have two := width_le second
  have three := width_le third
  obtain ⟨taken, reach⟩ := reach_of_next hfirst
  obtain ⟨taken', reach'⟩ := reach_of_next hsecond
  obtain ⟨taken'', reach''⟩ := reach_of_next hthird
  obtain ⟨given, same⟩ := reach_of_unread back
  obtain ⟨given', same'⟩ := reach_of_unread back'
  obtain ⟨given'', same''⟩ := reach_of_unread back''
  constructor <;> omega

theorem looks_of_takeWhile {p : Char → Bool} {found run : Text}
    (h : takeWhile p found r = .ok run after) : Looks 1 r after := by
  fun_induction takeWhile p found r with
  | case1 => cases h
  | case2 found r ended hnext =>
      cases h
      exact looks_of_next hnext 1
  | case3 found r c middle hnext more ih => exact (looks_of_next hnext 1).trans (ih h)
  | case4 found r c middle hnext other => exact looks_of_given_back hnext h

theorem looks_of_hexDigits {room value d : Nat} (h : hexDigits room value r = .ok d after) :
    Looks 1 r after := by
  induction room generalizing value r with
  | zero =>
      rw [hexDigits] at h
      obtain ⟨c, middle, hnext, h⟩ := bind_eq_ok h
      exact looks_of_given_back hnext h
  | succ room ih =>
      rw [hexDigits] at h
      obtain ⟨c, middle, hnext, h⟩ := bind_eq_ok h
      cases hc : c.bind hexValue? with
      | some d =>
          simp only [hc] at h
          exact (looks_of_next hnext 1).trans (ih h)
      | none =>
          simp only [hc] at h
          split at h
          · cases h
            exact looks_of_next hnext 1
          · exact looks_of_given_back hnext h

theorem looks_of_escape {e : Char} (h : escape r = .ok e after) : Looks 1 r after := by
  obtain ⟨c, middle, hnext, h⟩ := bind_eq_ok h
  have first := looks_of_next hnext 1
  cases c with
  | none => cases h
  | some c =>
      by_cases feed : c = '\n'
      · rw [feed] at h
        cases h
      · cases hd : hexValue? c with
        | some d =>
            simp only [feed, ite_false, hd] at h
            obtain ⟨value, last, hdigits, h⟩ := bind_eq_ok h
            cases h
            exact first.trans (looks_of_hexDigits hdigits)
        | none =>
            simp only [feed, ite_false, hd] at h
            cases h
            exact first

theorem looks_of_escape? {e : Option Char} (h : escape? r = .ok e after) : Looks 1 r after := by
  obtain ⟨c, middle, hpeek, h⟩ := bind_eq_ok h
  have first := looks_of_peek hpeek
  split at h
  · obtain ⟨e, last, hescape, h⟩ := bind_eq_ok h
    cases h
    exact first.trans (looks_of_escape hescape)
  · cases h
    exact first

theorem looks_of_stringEscape {e : Option Char} (h : stringEscape r = .ok e after) :
    Looks 1 r after := by
  obtain ⟨c, middle, hpeek, h⟩ := bind_eq_ok h
  have first := looks_of_peek hpeek
  cases c with
  | none =>
      cases h
      exact first
  | some c =>
      simp only at h
      split at h
      · obtain ⟨_, last, hnext, h⟩ := bind_eq_ok h
        cases h
        exact first.trans (looks_of_next hnext 1)
      · obtain ⟨e, last, hescape, h⟩ := bind_eq_ok h
        cases h
        exact first.trans (looks_of_escape hescape)

theorem looks_of_remnantEscape {e : Option Char} (h : remnantEscape r = .ok e after) :
    Looks 1 r after := by
  obtain ⟨c, middle, hpeek, h⟩ := bind_eq_ok h
  have first := looks_of_peek hpeek
  cases c with
  | none =>
      cases h
      exact first
  | some c =>
      simp only at h
      split at h
      · cases h
        exact first
      · obtain ⟨e, last, hescape, h⟩ := bind_eq_ok h
        cases h
        exact first.trans (looks_of_escape hescape)

/-- A backslash that begins no escape is given back after the look behind it. -/
theorem looks_of_no_escape {c : Char} {e : Option Char} {u : Unit} (hnext : next r = .ok (some c) s)
    (hescape : escape? s = .ok e t) (h : unread (some c) t = .ok u after) : Looks 2 r after := by
  obtain ⟨taken, reach⟩ := reach_of_next hnext
  obtain ⟨taken', reach'⟩ := looks_of_escape? hescape
  obtain ⟨taken'', reach''⟩ := reach_of_unread h
  rw [width_some] at taken taken''
  constructor <;> omega

/-- A name looks one code point ahead, and a second one only behind a backslash. -/
theorem looks_of_name {found value : Text} (h : name found r = .ok value after) :
    Looks 2 r after ∧ (after.ahead.head? ≠ some '\\' → Looks 1 r after) := by
  fun_induction name found r with
  | case1 => cases h
  | case2 found r ended hnext =>
      cases h
      exact ⟨looks_of_next hnext 2, fun _ => looks_of_next hnext 1⟩
  | case3 found r c middle hnext isName ih =>
      exact ⟨(looks_of_next hnext 2).trans (ih h).1, fun plain =>
        (looks_of_next hnext 1).trans ((ih h).2 plain)⟩
  | case4 => cases h
  | case5 found r middle e later hescape hnext notName ih =>
      have first := (looks_of_next hnext 1).trans (looks_of_escape? hescape)
      exact ⟨(first.mono (by decide)).trans (ih h).1, fun plain => first.trans ((ih h).2 plain)⟩
  | case6 found r middle later hescape hnext notName =>
      obtain ⟨_, last, hunread, h⟩ := bind_eq_ok h
      cases h
      refine ⟨looks_of_no_escape hnext hescape hunread, fun plain => ?_⟩
      obtain ⟨taken, -, rfl⟩ := unread_eq_ok hunread
      exact absurd rfl plain
  | case7 found r c middle hnext notName other =>
      have one := looks_of_given_back hnext h
      exact ⟨one.mono (by decide), fun _ => one⟩

theorem looks_of_comment {star : Bool} {found : Text} {inner : Text × Bool}
    (h : comment star found r = .ok inner after) : Looks 0 r after := by
  fun_induction comment star found r with
  | case1 => cases h
  | case2 star found r ended hnext =>
      cases h
      exact looks_of_next hnext 0
  | case3 star found r c middle hnext closed =>
      cases h
      exact looks_of_next hnext 0
  | case4 star found r c middle hnext more ih => exact (looks_of_next hnext 0).trans (ih h)

theorem looks_of_quoted {quote : Char} {found : Text} {inner : Text × Quoted.Ending}
    (h : quoted quote found r = .ok inner after) : Looks 1 r after := by
  fun_induction quoted quote found r with
  | case1 => cases h
  | case2 found r ended hnext =>
      cases h
      exact looks_of_next hnext 1
  | case3 found r middle hnext =>
      cases h
      exact looks_of_next hnext 1
  | case4 found r middle hnext notQuote => exact looks_of_given_back hnext h
  | case5 => cases h
  | case6 found r middle e later hescape hnext notQuote notFeed ih =>
      exact ((looks_of_next hnext 1).trans (looks_of_stringEscape hescape)).trans (ih h)
  | case7 found r c middle hnext notQuote notFeed notEscape ih =>
      exact (looks_of_next hnext 1).trans (ih h)

theorem looks_of_remnants {found content : Text} (h : remnants found r = .ok content after) :
    Looks 1 r after := by
  fun_induction remnants found r with
  | case1 => cases h
  | case2 found r ended hnext =>
      cases h
      exact looks_of_next hnext 1
  | case3 found r middle hnext =>
      cases h
      exact looks_of_next hnext 1
  | case4 => cases h
  | case5 found r middle e later hescape hnext notClosed ih =>
      exact ((looks_of_next hnext 1).trans (looks_of_remnantEscape hescape)).trans (ih h)
  | case6 found r c middle hnext notClosed notEscape ih =>
      exact (looks_of_next hnext 1).trans (ih h)

theorem looks_of_endOfUrl {blank : Char} {found : Text} {inner : Text × Bool}
    (h : endOfUrl blank found r = .ok inner after) : Looks 1 r after := by
  obtain ⟨blanks, s, htake, h⟩ := bind_eq_ok h
  obtain ⟨c, t, hnext, h⟩ := bind_eq_ok h
  have first := looks_of_takeWhile htake
  split at h
  · cases h
    exact first.trans (looks_of_next hnext 1)
  · obtain ⟨_, u, hunread, h⟩ := bind_eq_ok h
    obtain ⟨content, last, hremnants, h⟩ := bind_eq_ok h
    cases h
    exact (first.trans (looks_of_unread hnext hunread)).trans (looks_of_remnants hremnants)

theorem looks_of_spoiled {found : Text} {inner : Text × Bool}
    (h : spoiled found r = .ok inner after) : Looks 1 r after := by
  obtain ⟨content, last, hremnants, h⟩ := bind_eq_ok h
  cases h
  exact looks_of_remnants hremnants

theorem looks_of_url {found : Text} {inner : Text × Bool} (h : url found r = .ok inner after) :
    Looks 2 r after := by
  fun_induction url found r with
  | case1 => cases h
  | case2 found r ended hnext =>
      cases h
      exact looks_of_next hnext 2
  | case3 found r c middle hnext blank =>
      exact (looks_of_next hnext 2).trans ((looks_of_endOfUrl h).mono (by decide))
  | case4 found r middle hnext notBlank =>
      cases h
      exact looks_of_next hnext 2
  | case5 found r c middle hnext notBlank notClosed spoils =>
      exact (looks_of_next hnext 2).trans ((looks_of_spoiled h).mono (by decide))
  | case6 => cases h
  | case7 found r middle e later hescape hnext notBlank notClosed plain ih =>
      have first := (looks_of_next hnext 1).trans (looks_of_escape? hescape)
      exact (first.mono (by decide)).trans (ih h)
  | case8 found r middle later hescape hnext notBlank notClosed plain =>
      obtain ⟨_, last, hunread, h⟩ := bind_eq_ok h
      have given := looks_of_no_escape hnext hescape hunread
      exact given.trans ((looks_of_spoiled h).mono (by decide))
  | case9 found r c middle hnext notBlank notClosed plain notEscape ih =>
      exact (looks_of_next hnext 2).trans (ih h)

theorem looks_of_skip {n : Nat} {u : Unit} (h : skip n r = .ok u after) (far : Nat) :
    Looks far r after := by
  induction n generalizing r with
  | zero =>
      cases h
      exact .refl far _
  | succ n ih =>
      obtain ⟨_, middle, hnext, h⟩ := bind_eq_ok h
      exact (looks_of_next hnext far).trans (ih h)

theorem looks_of_sign {found : Text} (h : sign r = .ok found after) : Looks 1 r after := by
  obtain ⟨c, middle, hnext, h⟩ := bind_eq_ok h
  split at h
  · cases h
    exact looks_of_next hnext 1
  · exact looks_of_given_back hnext h

theorem looks_of_fraction {found : Text} (h : fraction r = .ok found after) :
    Looks 3 r after := by
  obtain ⟨ahead, s, hpeek, h⟩ := bind_eq_ok h
  have first := looks_of_peek3 hpeek
  split at h
  · obtain ⟨_, t, hnext, h⟩ := bind_eq_ok h
    obtain ⟨digits, last, hdigits, h⟩ := bind_eq_ok h
    cases h
    have point := first.trans (looks_of_next hnext 3)
    exact point.trans ((looks_of_takeWhile hdigits).mono (by decide))
  · cases h
    exact first

theorem looks_of_skip_digits {n : Nat} {front digits : Text}
    (h : (do skip n; let digits ← takeWhile Char.isDigit []; return front ++ digits : Scan Text) r =
      .ok digits after) : Looks 1 r after := by
  obtain ⟨_, s, hskip, h⟩ := bind_eq_ok h
  obtain ⟨run, last, hrun, h⟩ := bind_eq_ok h
  cases h
  exact (looks_of_skip hskip 1).trans (looks_of_takeWhile hrun)

theorem looks_of_exponent {found : Text} (h : exponent r = .ok found after) :
    Looks 3 r after := by
  obtain ⟨ahead, s, hpeek, h⟩ := bind_eq_ok h
  have first := looks_of_peek3 hpeek
  split at h
  · split at h
    · exact first.trans ((looks_of_skip_digits h).mono (by decide))
    · split at h
      · exact first.trans ((looks_of_skip_digits h).mono (by decide))
      · cases h
        exact first
  · cases h
    exact first

theorem looks_of_literalValue {literal : Text} {value : Double}
    (h : literalValue literal r = .ok value after) (far : Nat) : Looks far r after := by
  cases value? : Numeral.valueOf? (Numeral.canonical literal) with
  | none =>
      rw [literalValue, value?] at h
      cases h
  | some found =>
      rw [literalValue, value?] at h
      cases h
      exact .refl far r

/-- A number looks three code points ahead, and is never a function. -/
theorem looks_of_numeric {taken : Taken} (h : numeric r = .ok taken after) :
    Looks 3 r after ∧ taken.1.kind ≠ .function := by
  obtain ⟨sign, s, hsign, h⟩ := bind_eq_ok h
  obtain ⟨whole, t, hwhole, h⟩ := bind_eq_ok h
  obtain ⟨fraction, u, hfraction, h⟩ := bind_eq_ok h
  obtain ⟨exponent, v, hexponent, h⟩ := bind_eq_ok h
  obtain ⟨value, w, hvalue, h⟩ := bind_eq_ok h
  obtain ⟨ahead, x, hpeek, h⟩ := bind_eq_ok h
  have front := (looks_of_sign hsign).trans (looks_of_takeWhile hwhole)
  have literal := ((front.mono (by decide)).trans (looks_of_fraction hfraction)).trans
    (looks_of_exponent hexponent)
  have numeral := (literal.trans (looks_of_literalValue hvalue 3)).trans (looks_of_peek3 hpeek)
  split at h
  · obtain ⟨_, y, hskip, h⟩ := bind_eq_ok h
    cases h
    exact ⟨numeral.trans (looks_of_skip hskip 3), nofun⟩
  · split at h
    · obtain ⟨unit, y, hname, h⟩ := bind_eq_ok h
      cases h
      exact ⟨numeral.trans ((looks_of_name hname).1.mono (by decide)), nofun⟩
    · cases h
      exact ⟨numeral, nofun⟩

/-- The reader has blanks ahead and the quote behind them, and nothing else. -/
def BlanksAhead (r : Reader) : Prop :=
  ∃ blanks quote, r.ahead = blanks ++ [quote] ∧ (∀ c ∈ blanks, isWhitespace c) ∧
    (quote = '"' ∨ quote = '\'')

theorem ahead_of_peek {c : Char} (h : peek r = .ok (some c) after) :
    ∃ more, after.ahead = c :: more := by
  obtain ⟨first, s, hnext, h⟩ := bind_eq_ok h
  obtain ⟨_, t, hunread, h⟩ := bind_eq_ok h
  cases h
  obtain ⟨taken, -, rfl⟩ := unread_eq_ok hunread
  exact ⟨s.ahead, rfl⟩

theorem ahead_of_unreadAll {run : Text} {u : Unit} (h : unreadAll run r = .ok u after) :
    after.ahead = run ++ r.ahead := by
  induction run generalizing after with
  | nil =>
      cases h
      rfl
  | cons c rest ih =>
      obtain ⟨_, s, hrest, h⟩ := bind_eq_ok h
      obtain ⟨taken, -, rfl⟩ := unread_eq_ok h
      exact congrArg (c :: ·) (ih hrest)

/-- Nothing but what `next` gives stands first among what is ahead. -/
theorem head?_ahead_of_next {c d : Char} (h : next r = .ok (some c) s)
    (first : r.ahead.head? = some d) : d = c := by
  obtain ⟨more, ahead⟩ := List.head?_eq_some_iff.mp first
  simp only [next, ahead] at h
  cases h
  rfl

/-- A name takes at least as many code points as it has. -/
theorem length_of_name {value : Text} (h : name [] r = .ok value s) :
    r.taken.length + value.length ≤ s.taken.length := by
  have outcome := (yields_name [] r).outcome
  rw [h] at outcome
  obtain ⟨rfl, rest, moves⟩ := outcome
  have kept := congrArg List.length moves.keeps.1
  have fewer := Name.length_read_add_le r.text
  rw [rest] at kept
  simp only [List.length_append, List.length_reverse] at kept
  simp only [List.reverse_nil, List.nil_append]
  omega

theorem isWhitespace_of_takeWhile {run : Text} (h : takeWhile isWhitespace [] r = .ok run s) :
    ∀ c ∈ run, isWhitespace c := by
  have outcome := (yields_takeWhile isWhitespace [] r).outcome
  rw [h] at outcome
  obtain ⟨rfl, -, -⟩ := outcome
  exact fun c => Text.of_mem_takeWhile

/-- What a lexeme leaves ahead, from where `r` stands: it looks three code points ahead of its end,
or if it is the function `url`, it gives back the blanks and the quote behind it. Nothing else is
left ahead then if no more than three code points were when it began. -/
structure Leaves (r : Reader) (lexeme : Lexeme) (after : Reader) : Prop where
  looks : ¬lexeme.CallsUrl → Looks 3 r after
  blanks : lexeme.CallsUrl → r.reach ≤ r.taken.length + 3 → after.BlanksAhead

theorem Leaves.of_looks {lexeme : Lexeme} (looks : Looks 3 r after)
    (other : lexeme.kind ≠ .function) : Leaves r lexeme after :=
  ⟨fun _ => looks, fun calls => absurd calls.1 other⟩

/-- `url(` is four code points long at least, so that a reader with no more than four of them ahead
has nothing left ahead behind it. -/
theorem looks_of_url_call {value : Text} (hname : name [] r = .ok value s) (url : isUrlName value)
    (hnext : next s = .ok (some '(') t) (near : r.reach ≤ r.taken.length + 4) :
    t.reach ≤ t.taken.length := by
  have notBackslash : s.ahead.head? ≠ some '\\' := fun first => by
    cases head?_ahead_of_next hnext first
  have letters : value.length = 3 := by
    have lowered := congrArg List.length ((isUrlName_iff value).mp url)
    rwa [Text.lower, List.length_map] at lowered
  obtain ⟨-, reach⟩ := (looks_of_name hname).2 notBackslash
  have taken := length_of_name hname
  obtain ⟨taken', reach'⟩ := reach_of_next hnext
  rw [width_some] at taken'
  omega

/-- Behind `url(`, the blanks and the quote are all that is looked at. -/
theorem blanksAhead_of_quote {blanks : Text} {quote : Option Char} {u : Unit}
    (near : r.reach ≤ r.taken.length) (hblanks : takeWhile isWhitespace [] r = .ok blanks s)
    (hpeek : peek s = .ok quote t) (isQuote : quote = some '"' ∨ quote = some '\'')
    (hback : unreadAll blanks t = .ok u after) : after.BlanksAhead := by
  obtain ⟨taken, reach⟩ := (looks_of_takeWhile hblanks).trans (looks_of_peek hpeek)
  obtain ⟨mark, rfl, isMark⟩ : ∃ mark, quote = some mark ∧ (mark = '"' ∨ mark = '\'') := by
    rcases isQuote with rfl | rfl
    · exact ⟨'"', rfl, .inl rfl⟩
    · exact ⟨'\'', rfl, .inr rfl⟩
  obtain ⟨more, ahead⟩ := ahead_of_peek hpeek
  have nothing : more = [] := by
    rw [Reader.reach, ahead, List.length_cons] at reach
    exact List.length_eq_zero_iff.mp (by omega)
  refine ⟨blanks, mark, ?_, isWhitespace_of_takeWhile hblanks, isMark⟩
  rw [ahead_of_unreadAll hback, ahead, nothing]

theorem leaves_of_identLike {taken : Taken} (h : identLike r = .ok taken after) :
    (¬taken.1.CallsUrl → Looks 2 r after) ∧
      (taken.1.CallsUrl → r.reach ≤ r.taken.length + 4 → after.BlanksAhead) := by
  obtain ⟨name, s, hname, h⟩ := bind_eq_ok h
  obtain ⟨c, t, hnext, h⟩ := bind_eq_ok h
  have two := (looks_of_name hname).1
  by_cases call : c = some '('
  · subst call
    rw [if_neg (by simp)] at h
    by_cases isUrl : isUrlName name
    · rw [if_pos isUrl] at h
      obtain ⟨blanks, u, hblanks, h⟩ := bind_eq_ok h
      obtain ⟨quote, v, hpeek, h⟩ := bind_eq_ok h
      by_cases isQuote : quote = some '"' ∨ quote = some '\''
      · rw [if_pos isQuote] at h
        obtain ⟨_, w, hback, h⟩ := bind_eq_ok h
        cases h
        refine ⟨fun other => absurd ⟨rfl, (isUrlName_iff name).mp isUrl⟩ other, fun _ near => ?_⟩
        exact blanksAhead_of_quote (looks_of_url_call hname isUrl hnext near) hblanks hpeek isQuote
          hback
      · rw [if_neg isQuote] at h
        obtain ⟨⟨content, good⟩, w, hurl, h⟩ := bind_eq_ok h
        cases h
        have blanks := (looks_of_takeWhile hblanks).trans (looks_of_peek hpeek)
        refine ⟨fun _ => ((two.trans (looks_of_next hnext 2)).trans (blanks.mono (by decide))).trans
          (looks_of_url hurl), fun calls => ?_⟩
        cases good <;> cases calls.1
    · rw [if_neg isUrl] at h
      cases h
      refine ⟨fun _ => two.trans (looks_of_next hnext 2), fun calls => ?_⟩
      exact absurd ((isUrlName_iff name).mpr calls.2) isUrl
  · rw [if_pos call] at h
    obtain ⟨_, u, hunread, h⟩ := bind_eq_ok h
    cases h
    refine ⟨fun _ => two.trans ((looks_of_unread hnext hunread).mono (by decide)), fun calls => ?_⟩
    cases calls.1

section Starts

variable {c : Char} {taken : Taken}

/-- Looking further on than a scan that has looked already. -/
theorem Leaves.behind {lexeme : Lexeme} (h : Leaves s lexeme after) (first : Looks 3 r s) :
    Leaves r lexeme after := by
  refine ⟨fun other => first.trans (h.looks other), fun calls near => h.blanks calls ?_⟩
  obtain ⟨taken, reach⟩ := first
  omega

theorem leaves_of_pure {lexeme : Taken} (h : (pure lexeme : Scan Taken) r = .ok taken after)
    (other : lexeme.1.kind ≠ .function) : Leaves r taken.1 after := by
  cases h
  exact .of_looks (.refl 3 r) other

/-- One scan decides what the lexeme is. -/
theorem leaves_of_scan {α : Type} {scan : Scan α} {lexeme : α → Taken}
    (h : (do let a ← scan; return lexeme a : Scan Taken) r = .ok taken after)
    (looks : ∀ a s, scan r = .ok a s → Looks 3 r s) (other : ∀ a, (lexeme a).1.kind ≠ .function) :
    Leaves r taken.1 after := by
  obtain ⟨a, s, hscan, h⟩ := bind_eq_ok h
  exact (leaves_of_pure h (other a)).behind (looks a s hscan)

theorem leaves_of_name {lexeme : Text → Taken}
    (h : (do let value ← name []; return lexeme value : Scan Taken) r = .ok taken after)
    (other : ∀ value, (lexeme value).1.kind ≠ .function) : Leaves r taken.1 after :=
  leaves_of_scan h (fun _ _ hname => (looks_of_name hname).1.mono (by decide)) other

theorem leaves_of_skip {n : Nat} {lexeme : Taken}
    (h : (do skip n; return lexeme : Scan Taken) r = .ok taken after)
    (other : lexeme.1.kind ≠ .function) : Leaves r taken.1 after :=
  leaves_of_scan h (fun _ _ hskip => looks_of_skip hskip 3) fun _ => other

/-- A numeral that starts with the code point last taken. It takes that code point again. -/
theorem leaves_of_numeral (h : (do unread (some c); numeric) r = .ok taken after)
    (longer : r.taken.length ≤ after.taken.length) : Leaves r taken.1 after := by
  obtain ⟨_, s, hunread, h⟩ := bind_eq_ok h
  obtain ⟨⟨-, reach⟩, kind⟩ := looks_of_numeric h
  obtain ⟨-, same⟩ := reach_of_unread hunread
  exact .of_looks ⟨longer, same ▸ reach⟩ kind

/-- An identifier that starts with the code point last taken. -/
theorem leaves_of_identifier (h : (do unread (some c); identLike) r = .ok taken after)
    (longer : r.taken.length ≤ after.taken.length) : Leaves r taken.1 after := by
  obtain ⟨_, s, hunread, h⟩ := bind_eq_ok h
  obtain ⟨looks, blanks⟩ := leaves_of_identLike h
  obtain ⟨given, same⟩ := reach_of_unread hunread
  refine ⟨fun other => ⟨longer, ?_⟩, fun calls near => blanks calls ?_⟩
  · exact same ▸ ((looks other).mono (by decide)).reach
  · rw [width_some] at given
    omega

/-- A look leaves what is taken as it is, and decides what goes on. -/
theorem leaves_of_look {α : Type} {look : Scan α} {answer : α} {goesOn : α → Scan Taken}
    (keeps : Yields look r answer r.text) (looks : ∀ a s, look r = .ok a s → Looks 3 r s)
    (h : (do let ahead ← look; goesOn ahead) r = .ok taken after)
    (longer : r.taken.length ≤ after.taken.length)
    (rest : ∀ ahead s, goesOn ahead s = .ok taken after → s.taken.length ≤ after.taken.length →
      Leaves s taken.1 after) : Leaves r taken.1 after := by
  obtain ⟨ahead, s, hlook, h⟩ := bind_eq_ok h
  have same := keeps.keeps_taken hlook
  exact (rest ahead s h (same ▸ longer)).behind (looks ahead s hlook)

theorem leaves_of_peek {goesOn : Option Char → Scan Taken}
    (h : (do let ahead ← peek; goesOn ahead) r = .ok taken after)
    (longer : r.taken.length ≤ after.taken.length)
    (rest : ∀ ahead s, goesOn ahead s = .ok taken after → s.taken.length ≤ after.taken.length →
      Leaves s taken.1 after) : Leaves r taken.1 after :=
  leaves_of_look (yields_peek r) (fun _ _ hpeek => (looks_of_peek hpeek).mono (by decide)) h longer
    rest

theorem leaves_of_peek3 {goesOn : Lookahead → Scan Taken}
    (h : (do let ahead ← peek3; goesOn ahead) r = .ok taken after)
    (longer : r.taken.length ≤ after.taken.length)
    (rest : ∀ ahead s, goesOn ahead s = .ok taken after → s.taken.length ≤ after.taken.length →
      Leaves s taken.1 after) : Leaves r taken.1 after :=
  leaves_of_look (yields_peek3 r) (fun _ _ hpeek => looks_of_peek3 hpeek) h longer rest

theorem leaves_of_slash (h : lexemeFrom '/' r = .ok taken after) : Leaves r taken.1 after := by
  obtain ⟨star, s, hnext, h⟩ := bind_eq_ok h
  split at h
  · obtain ⟨⟨content, closed⟩, t, hcomment, h⟩ := bind_eq_ok h
    have inside := (looks_of_comment hcomment).mono (Nat.zero_le 3)
    exact (leaves_of_pure h nofun).behind ((looks_of_next hnext 3).trans inside)
  · obtain ⟨_, t, hunread, h⟩ := bind_eq_ok h
    exact (leaves_of_pure h nofun).behind ((looks_of_unread hnext hunread).mono (by decide))

theorem leaves_of_quote {quote : Char} (isQuote : quote = '"' ∨ quote = '\'')
    (h : lexemeFrom quote r = .ok taken after) : Leaves r taken.1 after := by
  rw [lexemeFrom_quote isQuote] at h
  obtain ⟨⟨content, ending⟩, s, hquoted, h⟩ := bind_eq_ok h
  refine (leaves_of_pure h ?_).behind ((looks_of_quoted hquoted).mono (by decide))
  cases ending <;> nofun

/-- What a lexeme leaves ahead of its end, when its first code point has been taken. -/
theorem leaves_of_lexemeFrom (h : lexemeFrom c r = .ok taken after)
    (longer : r.taken.length ≤ after.taken.length) : Leaves r taken.1 after := by
  by_cases isQuote : c = '"' ∨ c = '\''
  · exact leaves_of_quote isQuote h
  have whole := h
  unfold lexemeFrom at h
  split at h
  · exact leaves_of_slash whole
  · refine leaves_of_peek3 h longer fun ahead s h longer => ?_
    split at h
    · exact leaves_of_name h fun _ => nofun
    · exact leaves_of_pure h nofun
  · refine leaves_of_peek3 h longer fun ahead s h longer => ?_
    split at h
    · exact leaves_of_numeral h longer
    · exact leaves_of_pure h nofun
  · refine leaves_of_peek3 h longer fun ahead s h longer => ?_
    split at h
    · exact leaves_of_numeral h longer
    · split at h
      · exact leaves_of_skip h nofun
      · split at h
        · exact leaves_of_identifier h longer
        · exact leaves_of_pure h nofun
  · refine leaves_of_peek h longer fun digit s h longer => ?_
    split at h
    · exact leaves_of_numeral h longer
    · exact leaves_of_pure h nofun
  · refine leaves_of_peek3 h longer fun ahead s h longer => ?_
    split at h
    · exact leaves_of_skip h nofun
    · exact leaves_of_pure h nofun
  · refine leaves_of_peek3 h longer fun ahead s h longer => ?_
    split at h
    · exact leaves_of_name h fun _ => nofun
    · exact leaves_of_pure h nofun
  · refine leaves_of_peek h longer fun ahead s h longer => ?_
    split at h
    · exact leaves_of_identifier h longer
    · exact leaves_of_pure h nofun
  · rw [if_neg isQuote] at h
    split at h
    · exact leaves_of_scan h (fun _ _ hblanks => (looks_of_takeWhile hblanks).mono (by decide))
        fun _ => nofun
    · split at h
      · exact leaves_of_numeral h longer
      · split at h
        · exact leaves_of_identifier h longer
        · cases symbol : Kind.ofSymbol? c with
          | some kind =>
              simp only [symbol] at h
              refine leaves_of_pure h fun function => ?_
              have other := Lexeme.kind_of_symbol symbol
              rw [show kind = .function from function] at other
              exact absurd other (by decide)
          | none =>
              simp only [symbol] at h
              exact leaves_of_pure h nofun

end Starts

end Reader

end CssSyntax
