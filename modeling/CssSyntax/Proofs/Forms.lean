import CssSyntax.Proofs.Streams

/-!
The forms in which a text comes in. Reading unit by unit, with one unit held back at most, gives
what two passes over all units give. So it makes no difference whether a text comes as code points,
as code units of UTF-16 or in its normal form.
-/

namespace CssSyntax

open CodePoint

namespace Units

theorem isLow_val (c : Char) : isLow c.val = false := by
  have valid : c.val.toNat < 0xD800 ∨ 0xDFFF < c.val.toNat ∧ c.val.toNat < 0x110000 := c.valid
  have least : (0xDC00 : UInt32).toNat = 0xDC00 := rfl
  have most : (0xDFFF : UInt32).toNat = 0xDFFF := rfl
  simp only [isLow, Bool.and_eq_false_iff, decide_eq_false_iff_not, UInt32.le_iff_toNat_le]
  omega

end Units

namespace Normalizer

/-- After the end of the input nothing is left, and nothing held. -/
theorem readToEnd_state (n : Normalizer) : n.readToEnd.2 = .ofSource [] := by
  fun_induction readToEnd n with
  | case1 n after hread => exact (eq_of_end hread).2
  | case2 n c after hread later ih => exact ih
  | case3 n f after hread later ih => exact ih

theorem readMany_at_end (count : Nat) :
    readMany count (.ofSource []) = (List.replicate count (.ok none), .ofSource []) := by
  induction count with
  | zero => rfl
  | succ count ih =>
      have ended : (ofSource []).read = .ok none (.ofSource []) := rfl
      rw [readMany_of_ok ended, ih]
      rfl

/-- Reading units one by one gives the normal form of all of them, and then the end, again and
again. In the normal form there are no NUL, no line ends but line feeds and no surrogates, and read
in its turn it gives itself. -/
theorem readToEnd_normalizes (units : List UInt32) :
    let text := Units.normalize units
    let reading := (ofSource (units.map .unit)).readToEnd
    reading.1 = text.map (fun c => .ok (some c)) ++ [.ok none] ∧
      (∀ count, (readMany count reading.2).1 = List.replicate count (.ok none)) ∧
      text.IsNormal ∧
      (∀ c ∈ text, Units.isHigh c.val = false ∧ Units.isLow c.val = false) ∧
      (ofSource (Source.ofText text)).readToEnd.1 = reading.1 := by
  intro text reading
  have whole (units : List UInt32) : (ofSource (units.map .unit)).readToEnd.1 =
      (Units.normalize units).map (fun c => .ok (some c)) ++ [.ok none] := by
    rw [readToEnd_of_no_failures _ (Source.failures_units units), text_ofSource_units]
  have normal : text.IsNormal := Units.isNormal_normalize units
  refine ⟨whole units, fun count => ?_, normal, fun c _ => ?_, ?_⟩
  · rw [readToEnd_state, readMany_at_end]
  · exact ⟨Units.isHigh_val c, Units.isLow_val c⟩
  · have again := whole (Units.ofText text)
    rw [Units.normalize_ofText normal] at again
    exact again.trans (whole units).symm

end Normalizer

/-- The code units of UTF-16 for a code point: itself, or a pair of surrogates beyond the first
plane. -/
def CodePoint.utf16 (c : Char) : List UInt16 :=
  if c.toNat < 0x10000 then [.ofNat c.toNat]
  else
    [.ofNat (0xD800 + (c.toNat - 0x10000) / 0x400), .ofNat (0xDC00 + (c.toNat - 0x10000) % 0x400)]

/-- A text in UTF-16. -/
def Text.utf16 (text : Text) : List UInt16 := text.flatMap CodePoint.utf16

namespace Units

theorem toNat_toUInt32_ofNat {n : Nat} (h : n < 0x10000) : (UInt16.ofNat n).toUInt32.toNat = n := by
  rw [UInt16.toNat_toUInt32]
  exact UInt16.toNat_ofNat_of_lt' h

/-- The surrogates of a code point are decoded to it. -/
theorem decode_pair {c : Char} (beyond : 0x10000 ≤ c.toNat) (rest : List UInt32) :
    decode ((UInt16.ofNat (0xD800 + (c.toNat - 0x10000) / 0x400)).toUInt32 ::
        (UInt16.ofNat (0xDC00 + (c.toNat - 0x10000) % 0x400)).toUInt32 :: rest) =
      ofNumber c.toNat :: decode rest := by
  have most : c.toNat < 0x110000 := by
    rcases c.valid with below | above
    · exact Nat.lt_trans below (by decide)
    · exact above.2
  have high := toNat_toUInt32_ofNat (n := 0xD800 + (c.toNat - 0x10000) / 0x400) (by omega)
  have low := toNat_toUInt32_ofNat (n := 0xDC00 + (c.toNat - 0x10000) % 0x400) (by omega)
  generalize (UInt16.ofNat (0xD800 + (c.toNat - 0x10000) / 0x400)).toUInt32 = first at high ⊢
  generalize (UInt16.ofNat (0xDC00 + (c.toNat - 0x10000) % 0x400)).toUInt32 = second at low ⊢
  have isPair : isHigh first && isLow second := by
    have leastHigh : (0xD800 : UInt32).toNat = 0xD800 := rfl
    have mostHigh : (0xDBFF : UInt32).toNat = 0xDBFF := rfl
    have leastLow : (0xDC00 : UInt32).toNat = 0xDC00 := rfl
    have mostLow : (0xDFFF : UInt32).toNat = 0xDFFF := rfl
    simp only [isHigh, isLow, Bool.and_eq_true, decide_eq_true_eq, UInt32.le_iff_toNat_le]
    omega
  have number : 0x10000 + (first.toNat - 0xD800) * 0x400 + (second.toNat - 0xDC00) = c.toNat := by
    omega
  rw [decode, if_pos isPair, pair, number]

/-- A text in UTF-16 is decoded to the text. -/
theorem decode_utf16 (text : Text) :
    decode (text.utf16.map UInt16.toUInt32) = text.replaceNul := by
  induction text with
  | nil => rfl
  | cons c rest ih =>
      change decode ((utf16 c ++ Text.utf16 rest).map UInt16.toUInt32) =
        ofNumber c.toNat :: Text.replaceNul rest
      rw [List.map_append, ← ih, utf16]
      split
      · next small =>
          have unit : (UInt16.ofNat c.toNat).toUInt32 = c.val :=
            UInt32.toNat_inj.mp (toNat_toUInt32_ofNat small)
          rw [List.map_singleton, unit]
          exact decode_of_not_isHigh (isHigh_val c) _
      · next beyond => exact decode_pair (Nat.le_of_not_lt beyond) _

end Units

theorem Source.ofUtf16_some (units : List UInt16) :
    Source.ofUtf16 (units.map some) = (units.map UInt16.toUInt32).map .unit := by
  induction units with
  | nil => rfl
  | cons unit rest ih => exact congrArg _ ih

namespace TokenStream

/-- Units with one normal form give the same tokens and errors. -/
theorem drain_congr {units other : List UInt32}
    (same : Units.normalize units = Units.normalize other) (reporter : Reporter) :
    let drained := (ofSource (units.map .unit) reporter).drain
    let drained' := (ofSource (other.map .unit) reporter).drain
    drained.result = drained'.result ∧ drained.stream.reporter = drained'.stream.reporter := by
  obtain ⟨results, told⟩ := drain_units units reporter
  obtain ⟨results', told'⟩ := drain_units other reporter
  rw [same] at results told
  exact ⟨results.trans results'.symm, told.trans told'.symm⟩

/-- A text gives its tokens and its errors, and gives the same tokens, places included, and the same
errors when it comes in UTF-16 or with its line ends folded and its NULs replaced. -/
theorem drain_forms (text : Text) :
    let read (source : Source) :=
      let drained := (ofSource source (.collecting [])).drain
      (drained.result, drained.stream.reporter)
    read (Source.ofText text) = ((tokenize text).map .ok, .collecting (parseErrors text)) ∧
      read (Source.ofUtf16 (text.utf16.map some)) = read (Source.ofText text) ∧
      read (Source.ofText (Units.foldLines text.replaceNul)) = read (Source.ofText text) := by
  intro read
  have reads {units : List UInt32}
      (same : Units.normalize units = Units.normalize (Units.ofText text)) :
      read (units.map .unit) = read (Source.ofText text) := by
    obtain ⟨results, told⟩ := drain_congr same (.collecting [])
    exact Prod.ext results told
  refine ⟨?_, ?_, ?_⟩
  · obtain ⟨results, told⟩ := drain_ofText text
    exact Prod.ext results told
  · rw [Source.ofUtf16_some]
    apply reads
    rw [Units.normalize_ofText_eq, Units.normalize, Units.decode_utf16]
  · apply reads
    rw [← Units.normalize_ofText_eq]
    exact Units.normalize_ofText (Units.isNormal_normalize _)

end TokenStream

end CssSyntax
