import CssSyntax.Proofs.Normalizing

/-!
Normal text, in which line feeds end all lines and nothing is NUL. Normalization gives such text
and leaves it as it is, and reading a source unit by unit gives the normal form of its units.
-/

namespace CssSyntax

def Text.IsNormal (text : Text) : Prop := ∀ c ∈ text, c ≠ '\x00' ∧ c ≠ '\r' ∧ c ≠ '\x0C'

@[simp] theorem Text.isNormal_append {front behind : Text} :
    (front ++ behind).IsNormal ↔ front.IsNormal ∧ behind.IsNormal :=
  List.forall_mem_append

@[simp] theorem Text.isNormal_nil : Text.IsNormal [] := List.forall_mem_nil _

@[simp] theorem Text.isNormal_cons {c : Char} {text : Text} :
    Text.IsNormal (c :: text) ↔ (c ≠ '\x00' ∧ c ≠ '\r' ∧ c ≠ '\x0C') ∧ text.IsNormal :=
  List.forall_mem_cons

theorem Text.IsNormal.nul_notMem {text : Text} (normal : text.IsNormal) : '\x00' ∉ text :=
  fun nul => (normal _ nul).1 rfl

@[simp] theorem CodePoint.ofNumber_toNat_of_ne {c : Char} (h : c ≠ '\x00') : ofNumber c.toNat = c :=
  ofNumber_toNat fun zero => h (Char.ext (UInt32.toNat_inj.mp zero))

/-- A text with the replacement character in the place of every NUL. -/
def Text.replaceNul (text : Text) : Text := text.map fun c => CodePoint.ofNumber c.toNat

@[simp] theorem Text.replaceNul_nil : Text.replaceNul [] = [] := rfl

@[simp] theorem Text.replaceNul_cons (c : Char) (rest : Text) :
    Text.replaceNul (c :: rest) = CodePoint.ofNumber c.toNat :: rest.replaceNul := rfl

@[simp] theorem Text.replaceNul_eq_self {text : Text} (h : '\x00' ∉ text) :
    text.replaceNul = text := by
  induction text with
  | nil => rfl
  | cons c rest ih =>
      simp only [List.mem_cons, not_or] at h
      rw [replaceNul_cons, CodePoint.ofNumber_toNat_of_ne (Ne.symm h.1), ih h.2]

namespace Units

@[simp] theorem foldLines_cons {c : Char} (noReturn : c ≠ '\r') (noForm : c ≠ '\x0C')
    (rest : Text) :
    foldLines (c :: rest) = c :: foldLines rest := by
  rw [foldLines]
  · intro after hc
    exact absurd hc noReturn
  · exact noReturn
  · exact noForm

theorem foldLines_return {rest : Text} (h : rest.head? ≠ some '\n') :
    foldLines ('\r' :: rest) = '\n' :: foldLines rest := by
  rw [foldLines]
  rintro after rfl
  exact h rfl

/-- A pair of surrogates stands for a code point beyond the first plane. -/
theorem pair_ne {high low : UInt32} (h : isHigh high) (h' : isLow low) {c : Char}
    (small : c.toNat < 0x10000) : pair high low ≠ c := by
  rintro rfl
  simp only [isHigh, isLow, Bool.and_eq_true, decide_eq_true_eq, UInt32.le_iff_toNat_le] at h h'
  have least : (0xD800 : UInt32).toNat = 0xD800 := rfl
  have most : (0xDBFF : UInt32).toNat = 0xDBFF := rfl
  have leastLow : (0xDC00 : UInt32).toNat = 0xDC00 := rfl
  have mostLow : (0xDFFF : UInt32).toNat = 0xDFFF := rfl
  rw [pair, CodePoint.toNat_ofNumber] at small
  · omega
  · omega
  · exact .inr ⟨by omega, by omega⟩

theorem nul_notMem_decode (units : List UInt32) : '\x00' ∉ decode units := by
  have ofNumber (n : Nat) : '\x00' ≠ CodePoint.ofNumber n := (CodePoint.ofNumber_ne_nul n).symm
  fun_induction decode units with
  | case1 => exact List.not_mem_nil
  | case2 unit => simp [ofNumber]
  | case3 unit next rest h ih =>
      rw [List.mem_cons, not_or]
      exact ⟨ofNumber _, ih⟩
  | case4 unit next rest h ih => simp [ofNumber, ih]

theorem isNormal_foldLines {text : Text} (h : '\x00' ∉ text) : (foldLines text).IsNormal := by
  have feed : '\n' ≠ '\x00' ∧ '\n' ≠ '\r' ∧ '\n' ≠ '\x0C' := by decide
  fun_induction foldLines text with
  | case1 rest ih => exact List.forall_mem_cons.mpr ⟨feed, ih (by simp_all)⟩
  | case2 rest _ ih => exact List.forall_mem_cons.mpr ⟨feed, ih (by simp_all)⟩
  | case3 rest ih => exact List.forall_mem_cons.mpr ⟨feed, ih (by simp_all)⟩
  | case4 c rest _ noReturn noForm ih =>
      simp only [List.mem_cons, not_or] at h
      exact List.forall_mem_cons.mpr ⟨⟨Ne.symm h.1, noReturn, noForm⟩, ih h.2⟩
  | case5 => exact fun _ h => absurd h List.not_mem_nil

theorem isNormal_normalize (units : List UInt32) : (normalize units).IsNormal :=
  isNormal_foldLines (nul_notMem_decode units)

@[simp] theorem foldLines_of_isNormal {text : Text} (h : text.IsNormal) :
    foldLines text = text := by
  induction text with
  | nil => rfl
  | cons c rest ih =>
      obtain ⟨⟨_, noReturn, noForm⟩, behind⟩ := List.forall_mem_cons.mp h
      rw [foldLines_cons noReturn noForm, ih behind]

@[simp] theorem isHigh_val (c : Char) : isHigh c.val = false := by
  have valid : c.val.toNat < 0xD800 ∨ 0xDFFF < c.val.toNat ∧ c.val.toNat < 0x110000 := c.valid
  have least : (0xD800 : UInt32).toNat = 0xD800 := rfl
  have most : (0xDBFF : UInt32).toNat = 0xDBFF := rfl
  simp only [isHigh, Bool.and_eq_false_iff, decide_eq_false_iff_not, UInt32.le_iff_toNat_le]
  omega

theorem decode_of_not_isHigh {unit : UInt32} (h : isHigh unit = false) (units : List UInt32) :
    decode (unit :: units) = CodePoint.ofNumber unit.toNat :: decode units := by
  cases units with
  | nil => rfl
  | cons next rest => simp [decode, h]

/-- Code points in a row are decoded one by one. -/
@[simp] theorem decode_ofText (text : Text) : decode (ofText text) = text.replaceNul := by
  induction text with
  | nil => rfl
  | cons c rest ih =>
      rw [ofText_cons, Text.replaceNul_cons, decode_of_not_isHigh (isHigh_val c), ih]
      rfl

theorem normalize_ofText_eq (text : Text) :
    normalize (ofText text) = foldLines text.replaceNul := by
  rw [normalize, decode_ofText]

@[simp] theorem normalize_ofText {text : Text} (h : text.IsNormal) :
    normalize (ofText text) = text := by
  rw [normalize_ofText_eq, Text.replaceNul_eq_self h.nul_notMem,
    foldLines_of_isNormal h]

/-- A unit gives a certain line end only if it is its number. -/
theorem ofNumber_eq_iff {unit : UInt32} {c : Char} (nul : c ≠ '\x00') (plain : c ≠ replacement) :
    CodePoint.ofNumber unit.toNat = c ↔ unit = c.val := by
  constructor
  · rintro rfl
    by_cases h : unit.toNat ≠ 0 ∧ unit.toNat.isValidChar
    · exact UInt32.toNat_inj.mp (CodePoint.toNat_ofNumber h.1 h.2).symm
    · exact absurd (if_neg h) plain
  · rintro rfl
    exact CodePoint.ofNumber_toNat_of_ne nul

theorem foldLines_ofNumber {unit : UInt32} (noReturn : unit ≠ 0x0D) (rest : Text) :
    foldLines (CodePoint.ofNumber unit.toNat :: rest) =
      (if unit = 0x0C then '\n' else CodePoint.ofNumber unit.toNat) :: foldLines rest := by
  by_cases form : unit = 0x0C
  · subst form
    rfl
  · rw [if_neg form, foldLines_cons]
    · exact mt (ofNumber_eq_iff (by decide) (by decide)).mp noReturn
    · exact mt (ofNumber_eq_iff (by decide) (by decide)).mp form

theorem head?_decode_ne {unit : UInt32} (h : unit ≠ 0x0A) (units : List UInt32) :
    (decode (unit :: units)).head? ≠ some '\n' := by
  have plain : CodePoint.ofNumber unit.toNat ≠ '\n' :=
    mt (ofNumber_eq_iff (by decide) (by decide)).mp h
  cases units with
  | nil => simpa [decode] using plain
  | cons next rest =>
      rw [decode]
      split
      · next paired =>
          rw [Bool.and_eq_true] at paired
          simpa using pair_ne paired.1 paired.2 (by decide)
      · simpa using plain

theorem ofNumber_of_isHigh {unit : UInt32} (h : isHigh unit) :
    CodePoint.ofNumber unit.toNat = replacement := by
  simp only [isHigh, Bool.and_eq_true, decide_eq_true_eq, UInt32.le_iff_toNat_le] at h
  have least : (0xD800 : UInt32).toNat = 0xD800 := rfl
  have most : (0xDBFF : UInt32).toNat = 0xDBFF := rfl
  rw [CodePoint.ofNumber, if_neg]
  rintro ⟨_, below | above⟩ <;> omega

end Units

namespace Normalizer

/-- Holding a unit back is leaving it in the source. -/
@[simp] theorem text_held (unit : UInt32) (source : Source) :
    text ⟨source, some unit⟩ = (ofSource (.unit unit :: source)).text := by
  rw [text, text]
  rfl

theorem text_of_plain {unit : UInt32} (low : ¬Units.isHigh unit) (noReturn : unit ≠ 0x0D)
    (source : Source) :
    (ofSource (.unit unit :: source)).text =
      (if unit = 0x0C then '\n' else CodePoint.ofNumber unit.toNat) :: (ofSource source).text := by
  apply text_of_ok
  change interpret unit source = _
  rw [interpret, if_neg low, if_neg noReturn]
  split <;> rfl

theorem text_of_high {high : UInt32} (h : Units.isHigh high) (next : UInt32) (source : Source) :
    (ofSource (.unit high :: .unit next :: source)).text =
      if Units.isLow next then Units.pair high next :: (ofSource source).text
      else replacement :: (ofSource (.unit next :: source)).text := by
  have hread : (ofSource (.unit high :: .unit next :: source)).read =
      pairHigh high (.unit next :: source) := if_pos h
  by_cases low : Units.isLow next
  · rw [if_pos low]
    apply text_of_ok
    rw [hread, pairHigh, Source.read]
    exact if_pos low
  · rw [if_neg low, ← text_held next source]
    apply text_of_ok
    rw [hread, pairHigh, Source.read]
    exact if_neg low

theorem text_of_return (next : UInt32) (source : Source) :
    (ofSource (.unit 0x0D :: .unit next :: source)).text =
      if next = 0x0A then '\n' :: (ofSource source).text
      else '\n' :: (ofSource (.unit next :: source)).text := by
  have hread : (ofSource (.unit 0x0D :: .unit next :: source)).read =
      foldReturn (.unit next :: source) := rfl
  by_cases feed : next = 0x0A
  · rw [if_pos feed]
    apply text_of_ok
    simp only [hread, foldReturn, Source.read, if_pos feed]
    rfl
  · rw [if_neg feed, ← text_held next source]
    apply text_of_ok
    simp only [hread, foldReturn, Source.read, if_neg feed]

/-- Reading a source that does not fail gives the normal form of its units. -/
@[simp] theorem text_ofSource_units (units : List UInt32) :
    (ofSource (units.map .unit)).text = Units.normalize units := by
  unfold Units.normalize
  fun_induction Units.decode units with
  | case1 => exact (text_of_end rfl).1
  | case2 unit =>
      have ended : (ofSource []).text = [] := (text_of_end rfl).1
      by_cases high : Units.isHigh unit
      · rw [Units.ofNumber_of_isHigh high, Units.foldLines_cons (by decide) (by decide)]
        rw [show Units.foldLines [] = (ofSource []).text from ended.symm]
        exact text_of_ok (if_pos high)
      · by_cases feed : unit = 0x0D
        · subst feed
          have read : (ofSource [.unit 0x0D]).read = .ok (some '\n') (.ofSource []) := rfl
          exact (text_of_ok read).trans (congrArg _ ended)
        · rw [Units.foldLines_ofNumber feed, List.map_singleton, text_of_plain high feed, ended]
          rfl
  | case3 unit next rest h ih =>
      rw [Bool.and_eq_true] at h
      have noReturn : Units.pair unit next ≠ '\r' := Units.pair_ne h.1 h.2 (by decide)
      have noForm : Units.pair unit next ≠ '\x0C' := Units.pair_ne h.1 h.2 (by decide)
      rw [Units.foldLines_cons noReturn noForm, ← ih]
      exact (text_of_high h.1 next _).trans (if_pos h.2)
  | case4 unit next rest h ih =>
      by_cases high : Units.isHigh unit
      · have low : ¬Units.isLow next := by simpa [high] using h
        rw [Units.ofNumber_of_isHigh high, Units.foldLines_cons (by decide) (by decide), ← ih]
        exact (text_of_high high next _).trans (if_neg low)
      · by_cases feed : unit = 0x0D
        · subst feed
          change _ = Units.foldLines ('\r' :: Units.decode (next :: rest))
          simp only [List.map_cons]
          rw [text_of_return]
          by_cases newline : next = 0x0A
          · subst newline
            rw [List.map_cons, text_of_plain (by decide) (by decide)] at ih
            rw [Units.decode_of_not_isHigh rfl] at ih ⊢
            exact ih
          · rw [Units.foldLines_return (Units.head?_decode_ne newline rest), if_neg newline, ← ih]
            rfl
        · rw [Units.foldLines_ofNumber feed, ← ih]
          exact text_of_plain high feed _

/-- Normal text is read as it is. -/
@[simp] theorem text_ofSource_ofText {text : Text} (normal : text.IsNormal) :
    (ofSource (.ofText text)).text = text :=
  (text_ofSource_units _).trans (Units.normalize_ofText normal)

/-- Whatever stands before and behind it in the source, a code point that is read is normal. -/
theorem isNormal_of_ok {n after : Normalizer} {c : Char} (h : n.read = .ok (some c) after) :
    c ≠ '\x00' ∧ c ≠ '\r' ∧ c ≠ '\x0C' := by
  have behind (unit : UInt32) (source : Source) (h : interpret unit source = .ok (some c) after) :
      c ≠ '\x00' ∧ c ≠ '\r' ∧ c ≠ '\x0C' := by
    unfold interpret pairHigh foldReturn at h
    split at h
    · next high =>
        split at h
        · cases h
        · cases h
          decide
        · split at h
          · next low =>
              obtain ⟨same, -⟩ := EStateM.Result.ok.inj h
              rw [← Option.some.inj same]
              refine ⟨?_, ?_, ?_⟩
              all_goals exact Units.pair_ne high low (by decide)
          · cases h
            decide
    · split at h
      · split at h <;> cases h <;> decide
      · split at h
        · cases h
          decide
        · next noReturn noForm =>
            cases h
            refine ⟨CodePoint.ofNumber_ne_nul _, ?_, ?_⟩
            · exact mt (Units.ofNumber_eq_iff (by decide) (by decide)).mp noReturn
            · exact mt (Units.ofNumber_eq_iff (by decide) (by decide)).mp noForm
  obtain ⟨source, held⟩ := n
  cases held with
  | some unit => exact behind unit source h
  | none =>
      cases source with
      | nil => cases h
      | cons item rest =>
          cases item with
          | failure f => cases h
          | unit unit => exact behind unit rest h

theorem isNormal_text (n : Normalizer) : n.text.IsNormal := by
  fun_induction text n with
  | case1 n c after hread ih => exact Text.isNormal_cons.mpr ⟨isNormal_of_ok hread, ih⟩
  | case2 => exact Text.isNormal_nil

/-- What a normalizer has given is normal, also if reads have failed in between. -/
theorem isNormal_readMany (count : Nat) (n : Normalizer) :
    (codePoints (readMany count n).1).IsNormal := by
  induction count generalizing n with
  | zero => exact Text.isNormal_nil
  | succ count ih =>
      cases hread : n.read with
      | error f after =>
          rw [readMany_of_error hread]
          exact ih after
      | ok c after =>
          rw [readMany_of_ok hread]
          cases c with
          | none => exact ih after
          | some c => exact Text.isNormal_cons.mpr ⟨isNormal_of_ok hread, ih after⟩

theorem Gave.isNormal {source : Source} {text : Text} {n : Normalizer} (h : Gave source text n) :
    text.IsNormal := by
  obtain ⟨count, -, rfl⟩ := h
  exact isNormal_readMany count _

end Normalizer

end CssSyntax
