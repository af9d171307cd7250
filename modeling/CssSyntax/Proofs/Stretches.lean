import CssSyntax.Proofs.Casing
import CssSyntax.Writing

/-!
The stretches that a text is written in. Their places are counted in bytes, and they end only at a
byte that has an escape; since only ASCII has escapes, both ends of every stretch lie between code
points.
-/

namespace CssSyntax

namespace Text

/-- A run of code points in a text, and the places of its two ends, counted in bytes. -/
structure IsSpan (text : Text) (start stop : Nat) (run : Text) : Prop where
  split : ∃ front rest, text = front ++ run ++ rest ∧ byteLength front = start
  stop_eq : start + byteLength run = stop

/-- Cutting the bytes of a text between code points cuts the text there. -/
theorem IsSpan.slice_eq {text run : Text} {start stop : Nat} (span : IsSpan text start stop run) :
    slice text start stop = run := by
  obtain ⟨⟨front, rest, rfl, rfl⟩, rfl⟩ := span
  rw [slice, ← byteLength_append, ← length_utf8, ← length_utf8, utf8_append (front ++ run),
    List.take_left, utf8_append, List.drop_left, ofUtf8?_utf8]
  rfl

theorem isSpan_run (front run rest : Text) :
    IsSpan (front ++ run ++ rest) (byteLength front) (byteLength (front ++ run)) run :=
  ⟨⟨front, rest, rfl, rfl⟩, (byteLength_append front run).symm⟩

/-- The byte of a code point of ASCII is its number. -/
theorem ofUInt8_toUInt8 {c : Char} (ascii : c.val ≤ 127) : Char.ofUInt8 c.val.toUInt8 = c := by
  apply Char.ext
  apply UInt32.toNat_inj.mp
  rw [UInt32.le_iff_toNat_le] at ascii
  change c.val.toUInt8.toUInt32.toNat = c.val.toNat
  rw [UInt8.toNat_toUInt32, UInt32.toNat_toUInt8]
  exact Nat.mod_eq_of_lt (Nat.lt_of_le_of_lt ascii (by decide))

end Text

open Text

namespace Escape

variable {σ : Type} {escape? : Char → Option (Writing σ Unit)}

/-- Nothing beyond ASCII has an escape. -/
def OnlyAscii {α : Type} (escape? : Char → Option α) : Prop :=
  ∀ c : Char, 128 ≤ c.toNat → escape? c = none

theorem OnlyAscii.of_map {α β : Type} {f : α → β} {form? : Char → Option α}
    {escape? : Char → Option β} (only : OnlyAscii form?)
    (same : ∀ c, escape? c = (form? c).map f) : OnlyAscii escape? := by
  intro c beyond
  rw [same, only c beyond]
  rfl

theorem stretches_of_plain {bytes : List UInt8}
    (plain : ∀ b ∈ bytes, escape? (.ofUInt8 b) = none) (start place : Nat) (rest : List UInt8) :
    stretches escape? start place (bytes ++ rest) =
      stretches escape? start (place + bytes.length) rest := by
  induction bytes generalizing place with
  | nil => rfl
  | cons b bytes ih =>
      obtain ⟨first, plain⟩ := List.forall_mem_cons.mp plain
      have length : place + (b :: bytes).length = place + 1 + bytes.length := by
        rw [List.length_cons, Nat.add_right_comm, Nat.add_assoc]
      rw [List.cons_append, stretches, first, length]
      exact ih plain (place + 1)

variable (only : OnlyAscii escape?)

include only

theorem stretches_plain_cons {c : Char} (plain : escape? c = none) (start place : Nat)
    (rest : Text) :
    stretches escape? start place (utf8 (c :: rest)) =
      stretches escape? start (place + byteLength [c]) (utf8 rest) := by
  have bytes : ∀ b ∈ String.utf8EncodeChar c, escape? (.ofUInt8 b) = none := by
    intro b mem
    by_cases ascii : c.val ≤ 127
    · rw [String.utf8EncodeChar_eq_singleton (Char.utf8Size_eq_one_iff.mpr ascii)] at mem
      rw [List.mem_singleton.mp mem, ofUInt8_toUInt8 ascii, plain]
    · exact only _ (le_of_mem_utf8EncodeChar ascii b mem)
  rw [utf8_cons, stretches_of_plain bytes, String.length_utf8EncodeChar]
  rfl

theorem stretches_escaped_cons {c : Char} {escape : Writing σ Unit} (has : escape? c = some escape)
    (start place : Nat) (rest : Text) :
    stretches escape? start place (utf8 (c :: rest)) =
      ⟨start, place, escape⟩ ::
        stretches escape? (place + byteLength [c]) (place + byteLength [c]) (utf8 rest) := by
  have ascii : c.val ≤ 127 := by
    apply Decidable.byContradiction
    intro beyond
    have plain := only c (Nat.lt_of_not_le beyond)
    rw [plain] at has
    cases has
  rw [utf8_cons, String.utf8EncodeChar_eq_singleton (Char.utf8Size_eq_one_iff.mpr ascii),
    List.singleton_append, stretches, ofUInt8_toUInt8 ascii, has,
    byteLength_singleton_of_ascii ascii]

/-- Code point by code point, a text has come to the end of its last stretch, or goes on with the
stretch so far, or ends it at an escape. `front` is the text before that stretch and `run` what is
in it by now. -/
theorem stretches_induction {motive : Text → Text → Text → List (Stretch σ) → Prop}
    (last : ∀ front run,
      motive front run [] [⟨byteLength front, byteLength (front ++ run), pure ()⟩])
    (plain : ∀ front run c rest found, escape? c = none →
      motive front (run ++ [c]) rest found → motive front run (c :: rest) found)
    (escaped : ∀ front run c rest escape found, escape? c = some escape →
      motive (front ++ run ++ [c]) [] rest found →
      motive front run (c :: rest)
        (⟨byteLength front, byteLength (front ++ run), escape⟩ :: found))
    (front run rest : Text) :
    motive front run rest
      (stretches escape? (byteLength front) (byteLength (front ++ run)) (utf8 rest)) := by
  induction rest generalizing front run with
  | nil => exact last front run
  | cons c rest ih =>
      cases has : escape? c with
      | none =>
          rw [stretches_plain_cons only has, ← byteLength_append, List.append_assoc]
          exact plain front run c rest _ has (ih front (run ++ [c]))
      | some escape =>
          have behind := ih (front ++ run ++ [c]) []
          rw [List.append_nil] at behind
          rw [stretches_escaped_cons only has, ← byteLength_append]
          exact escaped front run c rest escape _ has behind

theorem exists_isSpan (front run rest : Text) :
    ∀ stretch ∈ stretches escape? (byteLength front) (byteLength (front ++ run)) (utf8 rest),
      ∃ part, IsSpan (front ++ run ++ rest) stretch.start stretch.stop part := by
  refine stretches_induction only (motive := fun front run rest found =>
    ∀ stretch ∈ found, ∃ part, IsSpan (front ++ run ++ rest) stretch.start stretch.stop part)
    ?_ ?_ ?_ front run rest
  · intro front run stretch mem
    rw [List.mem_singleton.mp mem]
    exact ⟨run, isSpan_run front run []⟩
  · intro front run c rest found _ ih
    rw [show front ++ run ++ c :: rest = front ++ (run ++ [c]) ++ rest by simp]
    exact ih
  · intro front run c rest escape found _ ih stretch mem
    rcases List.mem_cons.mp mem with rfl | mem
    · exact ⟨run, isSpan_run front run (c :: rest)⟩
    · rw [List.append_cons, ← List.append_nil (front ++ run ++ [c])]
      exact ih stretch mem

/-- Both ends of every stretch lie between code points, and what is cut out is what stands between
them. -/
theorem isSpan_of_mem_stretches (text : Text) :
    ∀ stretch ∈ stretches escape? 0 0 (utf8 text),
      IsSpan text stretch.start stretch.stop (text.slice stretch.start stretch.stop) := by
  intro stretch mem
  obtain ⟨run, span⟩ := exists_isSpan only [] [] text stretch mem
  rw [List.nil_append, List.nil_append] at span
  rw [span.slice_eq]
  exact span

end Escape

theorem CodePoint.ne_of_not_ascii {c d : Char} (beyond : 128 ≤ c.toNat) (ascii : d.toNat < 128) :
    c ≠ d := by
  rintro rfl
  omega

theorem CodePoint.not_isControl_of_not_ascii {c : Char} (beyond : 128 ≤ c.toNat) :
    isControl c = false := by
  simp only [isControl, Bool.or_eq_false_iff, decide_eq_false_iff_not, beq_eq_false_iff_ne]
  omega

theorem Name.onlyAscii_form? : Escape.OnlyAscii form? := by
  intro c beyond
  simp [form?, CodePoint.isName, CodePoint.isNameStart, beyond]

theorem Url.onlyAscii_form? : Escape.OnlyAscii form? := by
  intro c beyond
  have apart {d : Char} (ascii : d.toNat < 128) : c ≠ d := CodePoint.ne_of_not_ascii beyond ascii
  have space : c ≠ ' ' := apart (by decide)
  have opens : c ≠ '(' := apart (by decide)
  have closes : c ≠ ')' := apart (by decide)
  have quote : c ≠ '"' := apart (by decide)
  have apostrophe : c ≠ '\'' := apart (by decide)
  have backslash : c ≠ '\\' := apart (by decide)
  simp [form?, CodePoint.not_isControl_of_not_ascii beyond, space, opens, closes, quote, apostrophe,
    backslash]

theorem Quoted.onlyAscii_form? : Escape.OnlyAscii form? := by
  intro c beyond
  have apart {d : Char} (ascii : d.toNat < 128) : c ≠ d := CodePoint.ne_of_not_ascii beyond ascii
  have quote : c ≠ '"' := apart (by decide)
  have backslash : c ≠ '\\' := apart (by decide)
  have nul : c ≠ '\x00' := apart (by decide)
  simp [form?, CodePoint.not_isControl_of_not_ascii beyond, quote, backslash, nul]

end CssSyntax
