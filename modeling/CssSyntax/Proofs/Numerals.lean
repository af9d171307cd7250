import CssSyntax.Numeral
import Mathlib.Algebra.Group.Nat.Defs
import Mathlib.Logic.Basic

/-!
Reading accepts exactly the numerals, each as far as it goes: a text reads as a numeral and a rest
if it is the spelling of that numeral in front of a rest that cannot continue it.
-/

namespace CssSyntax

namespace Text

/-- Nothing of a class comes next. -/
def StopsAt (p : Char → Bool) (rest : Text) : Prop := ∀ c ∈ rest.head?, p c = false

@[simp] theorem stopsAt_nil (p : Char → Bool) : StopsAt p [] := by simp [StopsAt]

@[simp] theorem stopsAt_cons {p : Char → Bool} {c : Char} {rest : Text} :
    StopsAt p (c :: rest) ↔ p c = false := by
  simp [StopsAt]

theorem stopsAt_dropWhile (p : Char → Bool) (text : Text) : StopsAt p (text.dropWhile p) := by
  intro c hc
  have := List.head?_dropWhile_not p text
  rw [Option.mem_def.mp hc] at this
  simpa using this

theorem takeWhile_run {p : Char → Bool} {run rest : Text} (all : ∀ c ∈ run, p c)
    (stops : StopsAt p rest) : (run ++ rest).takeWhile p = run := by
  rw [List.takeWhile_append_of_pos all]
  cases rest with
  | nil => simp
  | cons c tail =>
      rw [List.takeWhile_cons_of_neg (by simp [stopsAt_cons.mp stops]), List.append_nil]

theorem dropWhile_run {p : Char → Bool} {run rest : Text} (all : ∀ c ∈ run, p c)
    (stops : StopsAt p rest) : (run ++ rest).dropWhile p = rest := by
  rw [List.dropWhile_append_of_pos all]
  cases rest with
  | nil => rfl
  | cons c tail => rw [List.dropWhile_cons_of_neg (by simp [stopsAt_cons.mp stops])]

theorem of_mem_takeWhile {p : Char → Bool} {text : Text} {c : Char}
    (h : c ∈ text.takeWhile p) : p c := by
  have := List.all_takeWhile (p := p) (l := text)
  exact List.all_eq_true.mp this c h

end Text

open Text

/-- A sign is a plus or a minus, and need not be there. -/
def IsSign (sign : Option Char) : Prop := ∀ c ∈ sign, c = '+' ∨ c = '-'

theorem splitSign_spec (text : Text) :
    IsSign (splitSign text).1 ∧ text = (splitSign text).1.toList ++ (splitSign text).2 := by
  cases text with
  | nil => simp [splitSign, IsSign]
  | cons c rest =>
      simp only [splitSign]
      split
      · next sign => exact ⟨by simpa [IsSign] using sign, rfl⟩
      · exact ⟨by simp [IsSign], rfl⟩

theorem splitSign_append {sign : Option Char} (isSign : IsSign sign) {rest : Text}
    (unsigned : sign = none → ∀ c ∈ rest.head?, c ≠ '+' ∧ c ≠ '-') :
    splitSign (sign.toList ++ rest) = (sign, rest) := by
  cases sign with
  | some c =>
      have : c = '+' ∨ c = '-' := isSign c rfl
      simp [splitSign, this]
  | none =>
      cases rest with
      | nil => rfl
      | cons c tail =>
          have := unsigned rfl c rfl
          simp [splitSign, this]

@[simp] theorem digitsValue_append (front behind : Text) :
    digitsValue (front ++ behind) =
      digitsValue front * 10 ^ behind.length + digitsValue behind := by
  rw [digitsValue, Nat.ofDigitChars_append, Nat.ofDigitChars_eq_ofDigitChars_zero, Nat.mul_comm]
  rfl

theorem digit_not_sign {c : Char} (h : c.isDigit) : c ≠ '+' ∧ c ≠ '-' ∧ c ≠ '.' := by
  refine ⟨?_, ?_, ?_⟩ <;> rintro rfl <;> simp at h

namespace Exponent

structure WellFormed (e : Exponent) : Prop where
  mark : e.mark = 'e' ∨ e.mark = 'E'
  sign : IsSign e.sign
  digits : ∀ c ∈ e.digits, c.isDigit
  some_digit : e.digits ≠ []

theorem read_eq_some_iff {text rest : Text} {e : Exponent} :
    read text = some (e, rest) ↔
      text = e.text ++ rest ∧ e.WellFormed ∧ StopsAt Char.isDigit rest := by
  constructor
  · intro h
    cases text with
    | nil => cases h
    | cons mark tail =>
        simp only [read] at h
        split at h
        · next found =>
            cases h
            obtain ⟨isSign, split⟩ := splitSign_spec tail
            refine ⟨?_, ⟨found.1, isSign, fun c => of_mem_takeWhile, found.2⟩,
              stopsAt_dropWhile _ _⟩
            simpa [Exponent.text] using split
        · cases h
  · rintro ⟨rfl, wf, stops⟩
    obtain ⟨mark, sign, digits⟩ := e
    have unsigned : splitSign (sign.toList ++ (digits ++ rest)) = (sign, digits ++ rest) := by
      apply splitSign_append wf.sign
      intro _ c hc
      obtain ⟨d, ds, rfl⟩ := List.exists_cons_of_ne_nil wf.some_digit
      cases hc
      have := digit_not_sign (wf.digits c (by simp))
      exact ⟨this.1, this.2.1⟩
    simp only [Exponent.text, List.cons_append, List.append_assoc, read, unsigned,
      takeWhile_run wf.digits stops, dropWhile_run wf.digits stops]
    exact if_pos ⟨wf.mark, wf.some_digit⟩

theorem stopsAt_digit_text {e : Exponent} (wf : e.WellFormed) (rest : Text) :
    StopsAt Char.isDigit (e.text ++ rest) := by
  rcases wf.mark with mark | mark <;> simp [Exponent.text, mark]

end Exponent

namespace Numeral

structure WellFormed (n : Numeral) : Prop where
  sign : IsSign n.sign
  whole : ∀ c ∈ n.whole, c.isDigit
  fraction : ∀ c ∈ n.fraction, c.isDigit
  some_digit : n.whole ≠ [] ∨ n.fraction ≠ []
  exponent : ∀ e ∈ n.exponent, e.WellFormed

/-- What follows a numeral does not continue it: neither with another digit nor with a part that
it does not have. -/
structure EndsBefore (n : Numeral) (rest : Text) : Prop where
  digits : StopsAt Char.isDigit rest
  exponent : n.exponent = none → Exponent.read rest = none
  fraction : n.exponent = none → n.fraction = [] → readFraction rest = ([], rest)

theorem readFraction_spec (text : Text) :
    (∀ c ∈ (readFraction text).1, c.isDigit) ∧
      text = (if (readFraction text).1 = [] then [] else '.' :: (readFraction text).1) ++
        (readFraction text).2 ∧
      ((readFraction text).1 ≠ [] → StopsAt Char.isDigit (readFraction text).2) := by
  cases text with
  | nil => simp [readFraction]
  | cons c rest =>
      simp only [readFraction]
      split
      · next found =>
          refine ⟨fun d => of_mem_takeWhile, ?_, fun _ => stopsAt_dropWhile _ _⟩
          simp [found.1, found.2]
      · simp

theorem readFraction_of_eq_nil {text : Text} (noFraction : (readFraction text).1 = []) :
    (readFraction text).2 = text := by
  have split := (readFraction_spec text).2.1
  rw [if_pos noFraction, List.nil_append] at split
  exact split.symm

theorem readFraction_append {fraction rest : Text} (digits : ∀ c ∈ fraction, c.isDigit)
    (some_digit : fraction ≠ []) (stops : StopsAt Char.isDigit rest) :
    readFraction ('.' :: fraction ++ rest) = (fraction, rest) := by
  simp only [List.cons_append, readFraction, takeWhile_run digits stops,
    dropWhile_run digits stops]
  simp [some_digit]

theorem readFraction_exponent_text {e : Exponent} (wf : e.WellFormed) (rest : Text) :
    readFraction (e.text ++ rest) = ([], e.text ++ rest) := by
  rcases wf.mark with mark | mark <;> simp [Exponent.text, mark, readFraction]

/-- What is spelled behind the whole digits: the fraction with its point, and the exponent. -/
def tailText (n : Numeral) : Text :=
  (if n.fraction = [] then [] else '.' :: n.fraction) ++ (n.exponent.map Exponent.text).getD []

theorem text_eq (n : Numeral) : n.text = n.sign.toList ++ (n.whole ++ n.tailText) := by
  simp [text, tailText]

theorem text_ne_nil {n : Numeral} (wf : n.WellFormed) : n.text ≠ [] := by
  rw [text_eq]
  rcases wf.some_digit with whole | fraction
  · simp [whole]
  · simp [tailText, fraction]

/-- The code points that numerals are made of. -/
def isPart (c : Char) : Bool := c.isDigit || ['+', '-', '.', 'e', 'E'].contains c

theorem WellFormed.isPart_of_mem_text {n : Numeral} (wf : n.WellFormed) :
    ∀ c ∈ n.text, isPart c := by
  have digit {run : Text} (all : ∀ c ∈ run, c.isDigit) : ∀ c ∈ run, isPart c :=
    fun c mem => by simp [isPart, all c mem]
  have sign {sign : Option Char} (isSign : IsSign sign) : ∀ c ∈ sign.toList, isPart c := by
    intro c mem
    rcases isSign c (Option.mem_toList.mp mem) with rfl | rfl <;> decide
  have exponent : ∀ c ∈ (n.exponent.map Exponent.text).getD [], isPart c := by
    cases found : n.exponent with
    | none => simp
    | some e =>
        have wf := wf.exponent e found
        refine List.forall_mem_append.mpr
          ⟨List.forall_mem_cons.mpr ⟨?_, sign wf.sign⟩, digit wf.digits⟩
        rcases wf.mark with mark | mark <;> simp [mark, isPart]
  have fraction : ∀ c ∈ if n.fraction = [] then [] else '.' :: n.fraction, isPart c := by
    split
    · simp
    · exact List.forall_mem_cons.mpr ⟨by decide, digit wf.fraction⟩
  rw [text]
  simp only [List.forall_mem_append]
  exact ⟨⟨⟨sign wf.sign, digit wf.whole⟩, fraction⟩, exponent⟩

theorem WellFormed.notMem_text {n : Numeral} (wf : n.WellFormed) {c : Char}
    (other : isPart c = false) : c ∉ n.text :=
  fun mem => by simp [wf.isPart_of_mem_text c mem] at other

theorem readFraction_tailText {n : Numeral} (wf : n.WellFormed) {rest : Text}
    (ends : n.EndsBefore rest) :
    readFraction (n.tailText ++ rest) =
      (n.fraction, (n.exponent.map Exponent.text).getD [] ++ rest) := by
  obtain ⟨sign, whole, fraction, exponent⟩ := n
  by_cases noFraction : fraction = []
  · subst noFraction
    cases exponent with
    | none => simpa [tailText] using ends.fraction rfl rfl
    | some e => simpa [tailText] using readFraction_exponent_text (wf.exponent e rfl) rest
  · have stops : StopsAt Char.isDigit ((exponent.map Exponent.text).getD [] ++ rest) := by
      cases exponent with
      | none => exact ends.digits
      | some e => exact Exponent.stopsAt_digit_text (wf.exponent e rfl) rest
    simpa [tailText, noFraction] using readFraction_append wf.fraction noFraction stops

theorem stopsAt_digit_tailText {n : Numeral} (wf : n.WellFormed) {rest : Text}
    (ends : n.EndsBefore rest) : StopsAt Char.isDigit (n.tailText ++ rest) := by
  obtain ⟨sign, whole, fraction, exponent⟩ := n
  by_cases noFraction : fraction = []
  · subst noFraction
    cases exponent with
    | none => exact ends.digits
    | some e => simpa [tailText] using Exponent.stopsAt_digit_text (wf.exponent e rfl) rest
  · simp [tailText, noFraction]

theorem read_text_append {n : Numeral} (wf : n.WellFormed) {rest : Text}
    (ends : n.EndsBefore rest) : read (n.text ++ rest) = some (n, rest) := by
  have unsigned : splitSign (n.sign.toList ++ (n.whole ++ (n.tailText ++ rest))) =
      (n.sign, n.whole ++ (n.tailText ++ rest)) := by
    apply splitSign_append wf.sign
    intro _ c hc
    cases hw : n.whole with
    | cons d ds =>
        rw [hw] at hc
        cases hc
        have := digit_not_sign (wf.whole c (by simp [hw]))
        exact ⟨this.1, this.2.1⟩
    | nil =>
        have point := wf.some_digit.resolve_left (by simp [hw])
        simp only [hw, tailText, point, if_false] at hc
        cases hc
        decide
  have wholeStops := stopsAt_digit_tailText wf ends
  rw [text_eq, List.append_assoc, List.append_assoc, read]
  simp only [unsigned, takeWhile_run wf.whole wholeStops, dropWhile_run wf.whole wholeStops,
    readFraction_tailText wf ends]
  rw [if_neg (not_and_or.mpr wf.some_digit)]
  cases he : n.exponent with
  | none =>
      obtain ⟨sign, whole, fraction, exponent⟩ := n
      cases he
      simp [ends.exponent rfl]
  | some e =>
      have : Exponent.read (e.text ++ rest) = some (e, rest) :=
        Exponent.read_eq_some_iff.mpr ⟨rfl, wf.exponent e he, ends.digits⟩
      obtain ⟨sign, whole, fraction, exponent⟩ := n
      cases he
      simp [this]

theorem read_eq_some_iff {text rest : Text} {n : Numeral} :
    read text = some (n, rest) ↔ text = n.text ++ rest ∧ n.WellFormed ∧ n.EndsBefore rest := by
  constructor
  · intro h
    obtain ⟨isSign, hsign⟩ := splitSign_spec text
    have wholeStops := stopsAt_dropWhile Char.isDigit (splitSign text).2
    have hwhole := List.takeWhile_append_dropWhile (p := Char.isDigit) (l := (splitSign text).2)
    obtain ⟨digits, hfraction, stops⟩ :=
      readFraction_spec ((splitSign text).2.dropWhile Char.isDigit)
    have whole (c : Char) (hc : c ∈ (splitSign text).2.takeWhile Char.isDigit) : c.isDigit :=
      of_mem_takeWhile hc
    simp only [read] at h
    generalize hs : splitSign text = signed at *
    generalize signed.2.takeWhile Char.isDigit = run at *
    generalize hd : signed.2.dropWhile Char.isDigit = behind at *
    generalize hf : readFraction behind = fraction at *
    split at h
    · cases h
    · next some_digit =>
        have restStops : StopsAt Char.isDigit fraction.2 := by
          by_cases noFraction : fraction.1 = []
          · simp only [noFraction, if_true, List.nil_append] at hfraction
            exact hfraction ▸ wholeStops
          · exact stops noFraction
        split at h
        · next noExponent =>
            cases h
            refine ⟨?_, ⟨isSign, whole, digits, not_and_or.mp some_digit, by simp⟩,
              ⟨restStops, fun _ => noExponent, fun _ noFraction => ?_⟩⟩
            · rw [hsign, ← hwhole, hfraction]
              simp [Numeral.text]
            · have noFraction : fraction.1 = [] := noFraction
              have same : behind = fraction.2 := by simpa [noFraction] using hfraction
              rw [← same, hf, ← noFraction, same]
        · next e after hexponent =>
            cases h
            obtain ⟨hafter, wf, ends⟩ := Exponent.read_eq_some_iff.mp hexponent
            refine ⟨?_, ⟨isSign, whole, digits, not_and_or.mp some_digit, by simpa using wf⟩,
              ⟨ends, by simp, by simp⟩⟩
            rw [hsign, ← hwhole, hfraction, hafter]
            simp [Numeral.text]
  · rintro ⟨rfl, wf, ends⟩
    exact read_text_append wf ends

@[simp] theorem endsBefore_nil (n : Numeral) : n.EndsBefore [] :=
  ⟨stopsAt_nil _, fun _ => rfl, fun _ _ => rfl⟩

/-- The numeral with a zero where there is no digit before the point. -/
def withWhole (n : Numeral) : Numeral := { n with whole := if n.whole = [] then ['0'] else n.whole }

theorem canonical_text {n : Numeral} (wf : n.WellFormed) : canonical n.text = n.withWhole.text := by
  rw [text_eq, text_eq]
  obtain ⟨sign, whole, fraction, exponent⟩ := n
  cases whole with
  | nil =>
      have point : fraction ≠ [] := wf.some_digit.resolve_left (by simp)
      cases sign with
      | none => simp [withWhole, tailText, point, canonical]
      | some c =>
          rcases wf.sign c rfl with rfl | rfl <;> simp [withWhole, tailText, point, canonical]
  | cons d digits =>
      obtain ⟨notPlus, notMinus, notPoint⟩ := digit_not_sign (wf.whole d (by simp))
      cases sign with
      | none => simp [withWhole, tailText, canonical, notPlus, notMinus, notPoint]
      | some c =>
          rcases wf.sign c rfl with rfl | rfl <;> simp [withWhole, tailText, canonical, notPoint]

theorem withWhole_wellFormed {n : Numeral} (wf : n.WellFormed) : n.withWhole.WellFormed := by
  refine ⟨wf.sign, ?_, wf.fraction, ?_, wf.exponent⟩
  · intro c hc
    simp only [withWhole] at hc
    split at hc
    · rw [List.mem_singleton.mp hc]
      decide
    · exact wf.whole c hc
  · left
    simp only [withWhole]
    split
    · simp
    · next h => exact h

@[simp] theorem value_withWhole (n : Numeral) : n.withWhole.value = n.value := by
  obtain ⟨sign, whole, fraction, exponent⟩ := n
  cases whole with
  | nil => simp [value, withWhole, digitsValue, Nat.ofDigitChars_cons]
  | cons d digits => rfl

/-- The literal of a numeral has the numeral's value, with or without a digit before the point. -/
theorem valueOf?_canonical_text {n : Numeral} (wf : n.WellFormed) :
    valueOf? (canonical n.text) = some n.value := by
  have hread : read (n.withWhole.text ++ []) = some (n.withWhole, []) :=
    read_text_append (withWhole_wellFormed wf) (endsBefore_nil _)
  have digit : n.withWhole.whole ≠ [] := by
    simp only [withWhole]
    split
    · simp
    · next h => exact h
  rw [List.append_nil] at hread
  rw [canonical_text wf, valueOf?, hread]
  simp only [digit, if_false, value_withWhole]

end Numeral

end CssSyntax
