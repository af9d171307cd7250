import CssSyntax.Proofs.Escaping
import CssSyntax.Proofs.Locality

/-!
A text as a row of glyphs: code points that stand for themselves, escapes, and backslashes that
begin none. A reader takes whole glyphs off the front of a text and leaves the others as they are.
-/

namespace CssSyntax

open CodePoint Text

namespace Escape

def isHex (c : Char) : Bool := (hexValue? c).isSome

/-- The digits that a text begins with, as many of them as an escape may have. -/
def leadingDigits (text : Text) : Text := (text.takeWhile isHex).take 6

/-- The blank that a text begins with, if it does. -/
def leadingBlank (text : Text) : Text := (text.takeWhile isWhitespace).take 1

/-- The text of the escape behind a backslash: one to six digits and the blank behind fewer than
six, or else one code point. -/
def spelling (text : Text) : Text :=
  let run := leadingDigits text
  if run = [] then text.take 1
  else if run.length < 6 then run ++ leadingBlank (text.drop run.length)
  else run

/-- The code point that an escape spelled like this stands for. -/
def meaning (spelling : Text) : Char :=
  let run := leadingDigits spelling
  if run = [] then spelling.headD replacement else ofNumber (hexNumber 0 run)

@[simp] theorem leadingDigits_append_drop (text : Text) :
    leadingDigits text ++ text.drop (leadingDigits text).length = text :=
  List.prefix_iff_eq_append.mp ((List.take_prefix ..).trans (List.takeWhile_prefix _))

@[simp] theorem leadingBlank_append_drop (text : Text) :
    leadingBlank text ++ text.drop (leadingBlank text).length = text :=
  List.prefix_iff_eq_append.mp ((List.take_prefix ..).trans (List.takeWhile_prefix _))

theorem isWhitespace_of_mem_leadingBlank {text : Text} :
    ∀ c ∈ leadingBlank text, isWhitespace c :=
  fun _ mem => of_mem_takeWhile (List.mem_of_mem_take mem)

theorem not_isHex_of_isWhitespace {c : Char} (blank : isWhitespace c) : isHex c = false := by
  simp only [isWhitespace, Bool.or_eq_true, beq_iff_eq] at blank
  rcases blank with (rfl | rfl) | rfl <;> decide

/-- The digits of an escape and the text behind them: there are six, or no other follows. -/
structure Digits (run rest : Text) : Prop where
  hex : ∀ c ∈ run, isHex c
  short : run.length ≤ 6
  stops : run.length < 6 → StopsAt isHex rest

theorem digits_leadingDigits (text : Text) :
    Digits (leadingDigits text) (text.drop (leadingDigits text).length) := by
  refine ⟨fun c mem => of_mem_takeWhile (List.mem_of_mem_take mem), List.length_take_le .., ?_⟩
  intro few
  have all : leadingDigits text = text.takeWhile isHex := by
    refine List.take_of_length_le ?_
    simp only [leadingDigits, List.length_take] at few
    omega
  have split := leadingDigits_append_drop text
  rw [all] at split ⊢
  rw [List.append_cancel_left (split.trans List.takeWhile_append_dropWhile.symm)]
  exact stopsAt_dropWhile isHex text

namespace Digits

variable {run rest : Text} (digits : Digits run rest)

include digits

theorem leadingDigits_eq : leadingDigits (run ++ rest) = run := by
  rw [leadingDigits]
  by_cases few : run.length < 6
  · rw [takeWhile_run digits.hex (digits.stops few), List.take_of_length_le digits.short]
  · rw [List.takeWhile_append_of_pos digits.hex]
    exact List.take_left' (Nat.le_antisymm digits.short (Nat.le_of_not_lt few))

/-- A blank behind the digits does not change what they stand for. -/
theorem meaning_eq (nonempty : run ≠ []) {blank : Text} (blanks : ∀ c ∈ blank, isWhitespace c) :
    meaning (run ++ blank) = ofNumber (hexNumber 0 run) := by
  have alone : Digits run blank := by
    refine ⟨digits.hex, digits.short, fun _ c first => ?_⟩
    exact not_isHex_of_isWhitespace (blanks c (List.mem_of_mem_head? first))
  simp only [meaning, alone.leadingDigits_eq, nonempty, if_false]

theorem read_eq (nonempty : run ≠ []) :
    read (run ++ rest) =
      some (ofNumber (hexNumber 0 run),
        if run.length < 6 then rest.drop (leadingBlank rest).length else rest) := by
  obtain ⟨room, hroom⟩ := Nat.exists_eq_add_of_le digits.short
  rw [read_run digits.hex nonempty hroom.symm]
  cases room with
  | zero => simp [Escape.digits, hroom]
  | succ room =>
      have few : run.length < 6 := by omega
      rw [if_pos few]
      cases rest with
      | nil => rfl
      | cons c after =>
          have notHex := stopsAt_cons.mp (digits.stops few)
          have value : hexValue? c = none := by simpa [isHex] using notHex
          by_cases blank : isWhitespace c <;> simp [Escape.digits, value, leadingBlank, blank]

end Digits

/-- An escape is read off the front of a text as it is spelled there. -/
theorem read_eq_some {text rest : Text} {e : Char} (h : read text = some (e, rest)) :
    text = spelling text ++ rest ∧ e = meaning (spelling text) := by
  have digits := digits_leadingDigits text
  have split := leadingDigits_append_drop text
  by_cases noDigits : leadingDigits text = []
  · cases text with
    | nil => cases h
    | cons c tail =>
        have notHex : isHex c = false :=
          Bool.eq_false_iff.mpr fun hex => by simp [leadingDigits, hex] at noDigits
        have value : hexValue? c = none := by simpa [isHex] using notHex
        have notFeed : c ≠ '\n' := by
          rintro rfl
          cases h
        rw [read_byItself value notFeed] at h
        obtain ⟨rfl, rfl⟩ := Prod.mk.inj (Option.some.inj h)
        simp [spelling, meaning, leadingDigits, notHex]
  · have found := digits.read_eq noDigits
    rw [split, h] at found
    obtain ⟨rfl, rfl⟩ := Prod.mk.inj (Option.some.inj found)
    simp only [spelling, noDigits, if_false]
    split
    · next few =>
        rw [List.append_assoc, leadingBlank_append_drop,
          digits.meaning_eq noDigits isWhitespace_of_mem_leadingBlank]
        exact ⟨split.symm, rfl⟩
    · rw [← digits.meaning_eq noDigits (List.forall_mem_nil _), List.append_nil]
      exact ⟨split.symm, rfl⟩

end Escape

/-- One unit of a text that is read from the left. -/
inductive Glyph where
  /-- A code point that stands for itself. -/
  | plain (c : Char)
  /-- A backslash and the escape behind it. -/
  | escape (spelling : Text)
  /-- A backslash in front of a line feed. -/
  | continuation
  /-- A backslash at the end of the text. -/
  | stray
  deriving DecidableEq, Repr

namespace Glyph

/-- The text of a glyph. -/
def text : Glyph → Text
  | plain c => [c]
  | escape spelling => '\\' :: spelling
  | continuation => ['\\', '\n']
  | stray => ['\\']

/-- What a glyph stands for: an escape for its code point, and everything else for itself. -/
def value : Glyph → Text
  | escape spelling => [Escape.meaning spelling]
  | glyph => glyph.text

def isBlank : Glyph → Bool
  | plain c => isWhitespace c
  | _ => false

/-- Whether it is a backslash that begins no escape. -/
def isLone (glyph : Glyph) : Bool := glyph = continuation ∨ glyph = stray

end Glyph

/-- The glyphs of a text. -/
def glyphs : Text → List Glyph
  | [] => []
  | ['\\'] => [.stray]
  | '\\' :: '\n' :: rest => .continuation :: glyphs rest
  | '\\' :: c :: rest =>
      let spelling := Escape.spelling (c :: rest)
      .escape spelling :: glyphs ((c :: rest).drop spelling.length)
  | c :: rest => .plain c :: glyphs rest
termination_by text => text.length
decreasing_by
  all_goals simp only [List.length_cons, List.length_drop]; omega

/-- The text that glyphs stand for. -/
def Glyph.values (glyphs : List Glyph) : Text := glyphs.flatMap value

/-- A text with its escapes resolved. -/
def unescape (text : Text) : Text := Glyph.values (glyphs text)

section

variable {c e : Char} {text rest : Text}

@[simp] theorem glyphs_nil : glyphs [] = [] := by rw [glyphs]

@[simp] theorem glyphs_of_plain (plain : c ≠ '\\') (rest : Text) :
    glyphs (c :: rest) = .plain c :: glyphs rest := by
  rw [glyphs] <;> simp [plain]

theorem glyphs_of_escape (h : Escape.read text = some (e, rest)) :
    glyphs ('\\' :: text) = .escape (Escape.spelling text) :: glyphs rest := by
  obtain ⟨split, -⟩ := Escape.read_eq_some h
  cases text with
  | nil => cases h
  | cons c tail =>
      have notFeed : c ≠ '\n' := by
        rintro rfl
        cases h
      have behind := congrArg (List.drop (Escape.spelling (c :: tail)).length) split
      rw [List.drop_left] at behind
      rw [glyphs]
      · simp only [behind]
      · simpa using notFeed

theorem glyphs_of_missing_escape (h : Escape.read rest = none) :
    glyphs ('\\' :: rest) =
      (if rest = [] then .stray else .continuation) :: glyphs (rest.drop 1) := by
  rcases Escape.read_eq_none_iff.mp h with rfl | feed
  · simp [glyphs]
  · obtain ⟨after, rfl⟩ := List.head?_eq_some_iff.mp feed
    simp [glyphs]

end

/-- Glyph by glyph, a text is its first one and the text behind it. -/
theorem glyphs_induction {motive : Text → Prop} (nil : motive [])
    (plain : ∀ c rest, c ≠ '\\' → motive rest → motive (c :: rest))
    (escape : ∀ text e rest, Escape.read text = some (e, rest) → motive rest →
      motive ('\\' :: text))
    (missing : ∀ rest, Escape.read rest = none → motive (rest.drop 1) → motive ('\\' :: rest)) :
    ∀ text, motive text
  | [] => nil
  | c :: rest => by
      by_cases backslash : c = '\\'
      · rw [backslash]
        cases read : Escape.read rest with
        | some found =>
            have := Escape.length_lt_of_read read
            exact escape rest found.1 found.2 read
              (glyphs_induction nil plain escape missing found.2)
        | none => exact missing rest read (glyphs_induction nil plain escape missing _)
      · exact plain c rest backslash (glyphs_induction nil plain escape missing rest)
termination_by text => text.length

/-- The glyphs of a text make it up. -/
@[simp] theorem flatMap_text_glyphs (text : Text) : (glyphs text).flatMap Glyph.text = text := by
  induction text using glyphs_induction with
  | nil => simp
  | plain c rest notEscape ih => simp [notEscape, ih, Glyph.text]
  | escape text e rest read ih =>
      rw [glyphs_of_escape read, List.flatMap_cons, ih]
      exact congrArg _ (Escape.read_eq_some read).1.symm
  | missing rest read ih =>
      rw [glyphs_of_missing_escape read, List.flatMap_cons, ih]
      rcases Escape.read_eq_none_iff.mp read with rfl | feed
      · rfl
      · obtain ⟨after, rfl⟩ := List.head?_eq_some_iff.mp feed
        rfl

theorem eq_append_of_glyphs {text rest : Text} {front : List Glyph}
    (h : glyphs text = front ++ glyphs rest) : text = front.flatMap Glyph.text ++ rest := by
  rw [← flatMap_text_glyphs text, h, List.flatMap_append, flatMap_text_glyphs]

/-- An escape is spelled the same when something near stands behind it. -/
theorem glyphs_spelling_append {text rest next : Text} {e : Char}
    (h : Escape.read text = some (e, rest)) (near : Near next rest) :
    glyphs ('\\' :: (Escape.spelling text ++ next)) =
      .escape (Escape.spelling text) :: glyphs next := by
  obtain ⟨front, split, hfront⟩ := Escape.local_read h
  have spelled := split.symm.trans (Escape.read_eq_some h).1
  rw [List.append_cancel_right spelled] at hfront
  have again := hfront next near trivial
  rw [glyphs_of_escape again, ← List.append_cancel_right (Escape.read_eq_some again).1]

/-- Glyphs at the front of a text are those of their own text. -/
theorem glyphs_flatMap_text {text : Text} {front behind : List Glyph}
    (h : glyphs text = front ++ behind) : glyphs (front.flatMap Glyph.text) = front := by
  induction text using glyphs_induction generalizing front with
  | nil =>
      rw [glyphs_nil] at h
      rw [(List.append_eq_nil_iff.mp h.symm).1]
      exact glyphs_nil
  | plain c rest notEscape ih =>
      rw [glyphs_of_plain notEscape] at h
      rcases List.cons_eq_append_iff.mp h with ⟨rfl, -⟩ | ⟨front, rfl, tail⟩
      · exact glyphs_nil
      · exact (glyphs_of_plain notEscape _).trans (congrArg _ (ih tail))
  | escape text e rest read ih =>
      rw [glyphs_of_escape read] at h
      rcases List.cons_eq_append_iff.mp h with ⟨rfl, -⟩ | ⟨front, rfl, tail⟩
      · exact glyphs_nil
      · have within : front.flatMap Glyph.text <+: rest := by
          rw [← flatMap_text_glyphs rest, tail, List.flatMap_append]
          exact List.prefix_append ..
        exact (glyphs_spelling_append read (near_of_front within)).trans (congrArg _ (ih tail))
  | missing rest read ih =>
      rw [glyphs_of_missing_escape read] at h
      rcases List.cons_eq_append_iff.mp h with ⟨rfl, -⟩ | ⟨front, rfl, tail⟩
      · exact glyphs_nil
      · rcases Escape.read_eq_none_iff.mp read with rfl | feed
        · rw [List.drop_nil, glyphs_nil] at tail
          rw [(List.append_eq_nil_iff.mp tail.symm).1]
          exact (glyphs_of_missing_escape read).trans (congrArg _ glyphs_nil)
        · obtain ⟨after, rfl⟩ := List.head?_eq_some_iff.mp feed
          have again : Escape.read ('\n' :: front.flatMap Glyph.text) = none := rfl
          exact (glyphs_of_missing_escape again).trans (congrArg _ (ih tail))

theorem glyphs_append_of_plain {run : Text} (plain : '\\' ∉ run) (rest : Text) :
    glyphs (run ++ rest) = run.map .plain ++ glyphs rest := by
  induction run with
  | nil => rfl
  | cons c run ih =>
      rw [List.mem_cons, not_or] at plain
      rw [List.cons_append, glyphs_of_plain (Ne.symm plain.1), ih plain.2]
      rfl

namespace Glyph

@[simp] theorem values_append (front behind : List Glyph) :
    values (front ++ behind) = values front ++ values behind := List.flatMap_append

@[simp] theorem values_plain (run : Text) : values (run.map .plain) = run := by
  induction run with
  | nil => rfl
  | cons c run ih => exact congrArg _ ih

theorem values_escape {text rest : Text} {e : Char} (h : Escape.read text = some (e, rest))
    (row : List Glyph) : values (.escape (Escape.spelling text) :: row) = e :: values row := by
  rw [(Escape.read_eq_some h).2]
  rfl

/-- The blanks that a text begins with. -/
def blanks (text : Text) : List Glyph := (text.takeWhile isWhitespace).map .plain

theorem isBlank_of_mem_blanks {text : Text} : ∀ glyph ∈ blanks text, glyph.isBlank := by
  intro glyph mem
  obtain ⟨c, found, rfl⟩ := List.mem_map.mp mem
  exact of_mem_takeWhile found

end Glyph

theorem glyphs_blanks (text : Text) :
    glyphs text = Glyph.blanks text ++ glyphs (text.dropWhile isWhitespace) := by
  have plain : '\\' ∉ text.takeWhile isWhitespace :=
    fun mem => absurd (of_mem_takeWhile mem) (by decide)
  rw [Glyph.blanks, ← glyphs_append_of_plain plain, List.takeWhile_append_dropWhile]

/-- A name is a run of glyphs, and all code points in it that are not escaped may stand in names. -/
theorem Name.glyphs_read (text : Text) :
    ∃ name, glyphs text = name ++ glyphs (read text).2 ∧ Glyph.values name = (read text).1 ∧
      ∀ c, .plain c ∈ name → isName c := by
  fun_induction read text with
  | case1 => exact ⟨[], rfl, rfl, by simp⟩
  | case2 c rest named inner ih =>
      obtain ⟨name, split, value, plain⟩ := ih
      have notEscape : c ≠ '\\' := by
        rintro rfl
        exact absurd named (by decide)
      refine ⟨.plain c :: name, ?_, congrArg _ value, ?_⟩
      · rw [glyphs_of_plain notEscape, split]
        rfl
      · simpa [named] using plain
  | case3 rest e after hread inner notName ih =>
      obtain ⟨name, split, value, plain⟩ := ih
      refine ⟨.escape (Escape.spelling rest) :: name, ?_, ?_, ?_⟩
      · rw [glyphs_of_escape hread, split]
        rfl
      · exact (Glyph.values_escape hread _).trans (congrArg _ value)
      · simpa using plain
  | case4 => exact ⟨[], rfl, rfl, by simp⟩
  | case5 => exact ⟨[], rfl, rfl, by simp⟩

/-- A string goes through the first of its quotes that is not escaped, or to a line feed or the end
of the text before that. -/
theorem Quoted.glyphs_read {quote : Char} (notBackslash : '\\' ≠ quote) (text : Text) :
    ∃ inside closing, glyphs text = inside ++ closing ++ glyphs (read quote text).rest ∧
      closing = (if (read quote text).ending = .quote then [.plain quote] else []) ∧
      (∀ c, .plain c ∈ inside → c ≠ quote ∧ c ≠ '\n') ∧
      Glyph.values (inside.filter fun glyph => !glyph.isLone) = (read quote text).content := by
  fun_induction read quote text with
  | case1 => exact ⟨[], [], rfl, rfl, by simp, rfl⟩
  | case2 rest =>
      exact ⟨[], [.plain quote], glyphs_of_plain notBackslash.symm rest, rfl, by simp, rfl⟩
  | case3 => exact ⟨[], [], rfl, rfl, by simp, rfl⟩
  | case4 rest e after hread inner notQuote notFeed ih =>
      obtain ⟨inside, closing, split, closes, plain, value⟩ := ih
      refine ⟨.escape (Escape.spelling rest) :: inside, closing, ?_, closes, ?_, ?_⟩
      · rw [glyphs_of_escape hread, split]
        rfl
      · simpa using plain
      · exact (Glyph.values_escape hread _).trans (congrArg _ value)
  | case5 rest hread notQuote notFeed ih =>
      obtain ⟨inside, closing, split, closes, plain, value⟩ := ih
      refine ⟨(if rest = [] then .stray else .continuation) :: inside, closing, ?_, closes, ?_, ?_⟩
      · rw [glyphs_of_missing_escape hread, split]
        rfl
      · split <;> simpa using plain
      · split <;> simpa [Glyph.isLone] using value
  | case6 c rest notQuote notFeed notEscape inner ih =>
      obtain ⟨inside, closing, split, closes, plain, value⟩ := ih
      refine ⟨.plain c :: inside, closing, ?_, closes, ?_, congrArg _ value⟩
      · rw [glyphs_of_plain notEscape, split]
        rfl
      · simpa [notQuote, notFeed] using plain

namespace Url

/-- A text begins with the glyphs `inside`, and behind them stands the first parenthesis that closes
it, or nothing. -/
structure Encloses (text : Text) (inside closing : List Glyph) (rest : Text) : Prop where
  split : glyphs text = inside ++ closing ++ glyphs rest
  closes : closing = [.plain ')'] ∨ closing = [] ∧ rest = []
  unclosed : .plain ')' ∉ inside

theorem encloses_nil : Encloses [] [] [] [] := ⟨rfl, .inr ⟨rfl, rfl⟩, by simp⟩

theorem encloses_close (rest : Text) : Encloses (')' :: rest) [] [.plain ')'] rest :=
  ⟨glyphs_of_plain (by decide) rest, .inl rfl, by simp⟩

theorem Encloses.append {text text' rest : Text} {inside closing front : List Glyph}
    (h : Encloses text inside closing rest) (step : glyphs text' = front ++ glyphs text)
    (more : .plain ')' ∉ front) : Encloses text' (front ++ inside) closing rest := by
  refine ⟨?_, h.closes, ?_⟩
  · rw [step, h.split, List.append_assoc, List.append_assoc, List.append_assoc]
  · rw [List.mem_append, not_or]
    exact ⟨more, h.unclosed⟩

theorem Encloses.cons {text text' rest : Text} {inside closing : List Glyph} {first : Glyph}
    (h : Encloses text inside closing rest) (step : glyphs text' = first :: glyphs text)
    (other : first ≠ .plain ')') : Encloses text' (first :: inside) closing rest := by
  have front : glyphs text' = [first] ++ glyphs text := step
  exact h.append front (by simpa using Ne.symm other)

/-- What is left of a bad url goes through the first parenthesis that closes it. -/
theorem encloses_readRemnants (text : Text) :
    ∃ inside closing, Encloses text inside closing (readRemnants text).2 ∧
      Glyph.values (inside.filter (· ≠ .stray)) = (readRemnants text).1 := by
  induction text using glyphs_induction with
  | nil =>
      rw [readRemnants]
      exact ⟨[], [], encloses_nil, rfl⟩
  | plain c rest notEscape ih =>
      by_cases closed : c = ')'
      · rw [closed, readRemnants_of_close]
        exact ⟨[], [.plain ')'], encloses_close rest, rfl⟩
      · obtain ⟨inside, closing, encloses, value⟩ := ih
        rw [readRemnants_of_plain closed notEscape]
        exact ⟨.plain c :: inside, closing,
          encloses.cons (glyphs_of_plain notEscape rest) (by simpa using closed),
          congrArg _ value⟩
  | escape text e rest read ih =>
      obtain ⟨inside, closing, encloses, value⟩ := ih
      rw [readRemnants_of_escape read]
      exact ⟨.escape (Escape.spelling text) :: inside, closing,
        encloses.cons (glyphs_of_escape read) (by simp),
        (Glyph.values_escape read _).trans (congrArg _ value)⟩
  | missing rest read ih =>
      have step := glyphs_of_missing_escape read
      rcases Escape.read_eq_none_iff.mp read with rfl | feed
      · rw [readRemnants_of_end]
        exact ⟨[.stray], [], encloses_nil.cons step (by simp), rfl⟩
      · obtain ⟨after, rfl⟩ := List.head?_eq_some_iff.mp feed
        obtain ⟨inside, closing, encloses, value⟩ := ih
        have more : '\n' :: after ≠ [] := List.cons_ne_nil _ _
        rw [readRemnants_of_missing_escape read more, readRemnants_of_plain (by decide) (by decide)]
        exact ⟨.continuation :: inside, closing, encloses.cons step (by simp),
          congrArg (['\\', '\n'] ++ ·) value⟩

/-- A url is spoiled behind code points that stand for themselves. -/
theorem encloses_spoiled {text front rest : Text}
    (step : glyphs text = front.map .plain ++ glyphs rest) (unclosed : ')' ∉ front) :
    ∃ inside closing, Encloses text inside closing (spoiled front rest).rest ∧
      Glyph.values (inside.filter (· ≠ .stray)) = (spoiled front rest).content := by
  obtain ⟨inside, closing, encloses, value⟩ := encloses_readRemnants rest
  refine ⟨front.map .plain ++ inside, closing, encloses.append step (by simpa using unclosed), ?_⟩
  have kept : (front.map Glyph.plain).filter (· ≠ .stray) = front.map .plain := by
    simp [List.filter_eq_self]
  rw [List.filter_append, Glyph.values_append, kept, Glyph.values_plain, value]
  rfl

theorem encloses_read_of_good {text : Text} (good : (read text).good) :
    ∃ inside blanks closing, Encloses text (inside ++ blanks) closing (read text).rest ∧
      (closing = [] → blanks = []) ∧ (∀ glyph ∈ blanks, glyph.isBlank) ∧
      (∀ glyph ∈ inside, glyph.isBlank = false) ∧
      Glyph.values inside = (read text).content := by
  fun_induction read text with
  | case1 => exact ⟨[], [], [], encloses_nil, by simp, by simp, by simp, rfl⟩
  | case2 rest =>
      exact ⟨[], [], [.plain ')'], encloses_close rest, by simp, by simp, by simp, rfl⟩
  | case3 c rest notClosed blank after closed =>
      have step := glyphs_blanks (c :: rest)
      rw [List.dropWhile_cons_of_pos blank, closed] at step
      have unclosed : .plain ')' ∉ Glyph.blanks (c :: rest) :=
        fun mem => absurd (Glyph.isBlank_of_mem_blanks _ mem) (by decide)
      have encloses := (encloses_close after).append step unclosed
      rw [List.append_nil] at encloses
      exact ⟨[], Glyph.blanks (c :: rest), [.plain ')'], encloses, by simp,
        Glyph.isBlank_of_mem_blanks, by simp, rfl⟩
  | case4 => cases good
  | case5 => cases good
  | case6 rest e after hread inner _ _ _ ih =>
      obtain ⟨inside, blanks, closing, encloses, closes, isBlank, clean, value⟩ := ih good
      refine ⟨.escape (Escape.spelling rest) :: inside, blanks, closing, ?_, closes, isBlank, ?_,
        ?_⟩
      · exact encloses.cons (glyphs_of_escape hread) (by simp)
      · simpa [Glyph.isBlank] using clean
      · exact (Glyph.values_escape hread _).trans (congrArg _ value)
  | case7 => cases good
  | case8 c rest notClosed notBlank clean notEscape inner ih =>
      obtain ⟨inside, blanks, closing, encloses, closes, isBlank, clean, value⟩ := ih good
      refine ⟨.plain c :: inside, blanks, closing, ?_, closes, isBlank, ?_, congrArg _ value⟩
      · exact encloses.cons (glyphs_of_plain notEscape rest) (by simpa using notClosed)
      · simpa [Glyph.isBlank, notBlank] using clean

theorem encloses_read_of_bad {text : Text} (bad : (read text).good = false) :
    ∃ inside closing, Encloses text inside closing (read text).rest ∧
      Glyph.values (inside.filter (· ≠ .stray)) = (read text).content := by
  fun_induction read text with
  | case1 => cases bad
  | case2 => cases bad
  | case3 => cases bad
  | case4 c rest notClosed blank more =>
      have step := glyphs_blanks (c :: rest)
      rw [Glyph.blanks, List.dropWhile_cons_of_pos blank, List.takeWhile_cons_of_pos blank] at step
      refine encloses_spoiled step fun mem => ?_
      rcases List.mem_cons.mp mem with rfl | mem
      · exact notClosed rfl
      · exact absurd (of_mem_takeWhile mem) (by decide)
  | case5 c rest notClosed notBlank spoils =>
      have notEscape : c ≠ '\\' := by
        rintro rfl
        exact absurd spoils (by decide)
      have step : glyphs (c :: rest) = [c].map .plain ++ glyphs rest :=
        glyphs_of_plain notEscape rest
      exact encloses_spoiled step (by simpa using Ne.symm notClosed)
  | case6 rest e after hread inner _ _ _ ih =>
      obtain ⟨inside, closing, encloses, value⟩ := ih bad
      exact ⟨.escape (Escape.spelling rest) :: inside, closing,
        encloses.cons (glyphs_of_escape hread) (by simp),
        (Glyph.values_escape hread _).trans (congrArg _ value)⟩
  | case7 rest hread => exact encloses_spoiled rfl (by simp)
  | case8 c rest notClosed notBlank clean notEscape inner ih =>
      obtain ⟨inside, closing, encloses, value⟩ := ih bad
      exact ⟨.plain c :: inside, closing,
        encloses.cons (glyphs_of_plain notEscape rest) (by simpa using notClosed),
        congrArg _ value⟩

end Url

end CssSyntax
