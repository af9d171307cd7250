import Mathlib.Algebra.Group.Nat.Defs
import CssSyntax.Position
import CssSyntax.Reader.Span
import CssSyntax.Units

/-!
The same computations on words of 32 bits. The pair of two surrogates, the number of an escape and
the places in a text are counted in words by operations that give the exact result or nothing, and
they give what the unbounded ones give.
-/

namespace CssSyntax

namespace Word

/-- The word of a number, if it is not too large for one. -/
def ofNat? (n : Nat) : Option UInt32 := if n < 2 ^ 32 then some (.ofNat n) else none

def add? (a b : UInt32) : Option UInt32 := ofNat? (a.toNat + b.toNat)

def mul? (a b : UInt32) : Option UInt32 := ofNat? (a.toNat * b.toNat)

def sub? (a b : UInt32) : Option UInt32 :=
  if b.toNat ≤ a.toNat then ofNat? (a.toNat - b.toNat) else none

theorem exists_ofNat? {n : Nat} (h : n < 2 ^ 32) :
    ∃ word, ofNat? n = some word ∧ word.toNat = n :=
  ⟨.ofNat n, if_pos h, UInt32.toNat_ofNat_of_lt h⟩

section

variable {a b : UInt32} {m n : Nat} (left : a.toNat = m) (right : b.toNat = n)

include left right

theorem exists_add? (h : m + n < 2 ^ 32) :
    ∃ sum, add? a b = some sum ∧ sum.toNat = m + n := by
  subst left right
  exact exists_ofNat? h

theorem exists_mul? (h : m * n < 2 ^ 32) :
    ∃ product, mul? a b = some product ∧ product.toNat = m * n := by
  subst left right
  exact exists_ofNat? h

theorem exists_sub? (h : n ≤ m) :
    ∃ difference, sub? a b = some difference ∧ difference.toNat = m - n := by
  subst left right
  rw [sub?, if_pos h]
  exact exists_ofNat? (Nat.lt_of_le_of_lt (Nat.sub_le ..) a.toNat_lt)

end

/-- The number that one more hexadecimal digit makes of another one. -/
def push? (word : UInt32) (digit : Nat) : Option UInt32 := do
  add? (← mul? word 16) (← ofNat? digit)

theorem exists_push? {word : UInt32} {digit : Nat} (fits : word.toNat * 16 + digit < 2 ^ 32) :
    ∃ longer, push? word digit = some longer ∧ longer.toNat = word.toNat * 16 + digit := by
  obtain ⟨shifted, hshifted, shifted_eq⟩ :=
    exists_mul? (a := word) (b := 16) (n := 16) rfl rfl (by omega)
  obtain ⟨last, hlast, last_eq⟩ := exists_ofNat? (n := digit) (by omega)
  obtain ⟨longer, hlonger, longer_eq⟩ := exists_add? shifted_eq last_eq fits
  refine ⟨longer, ?_, longer_eq⟩
  simp only [push?, hshifted, hlast, Option.bind_eq_bind, Option.bind_some, hlonger]

end Word

namespace Units

/-- The number of a pair of surrogates, in words. -/
def pair? (high low : UInt32) : Option UInt32 := do
  let top ← Word.mul? (← Word.sub? high 0xD800) 0x400
  let sum ← Word.add? 0x10000 top
  Word.add? sum (← Word.sub? low 0xDC00)

theorem isHigh_iff (unit : UInt32) : isHigh unit ↔ 0xD800 ≤ unit.toNat ∧ unit.toNat ≤ 0xDBFF := by
  simp [isHigh, UInt32.le_iff_toNat_le]

theorem isLow_iff (unit : UInt32) : isLow unit ↔ 0xDC00 ≤ unit.toNat ∧ unit.toNat ≤ 0xDFFF := by
  simp [isLow, UInt32.le_iff_toNat_le]

/-- The number of a pair of surrogates does not leave words on the way. -/
theorem pair?_eq {high low : UInt32} (highHalf : isHigh high) (lowHalf : isLow low) :
    (pair? high low).map (fun word => CodePoint.ofNumber word.toNat) = some (pair high low) := by
  obtain ⟨leastHigh, mostHigh⟩ := (isHigh_iff high).mp highHalf
  obtain ⟨leastLow, mostLow⟩ := (isLow_iff low).mp lowHalf
  obtain ⟨top, htop, top_eq⟩ :=
    Word.exists_sub? (b := 0xD800) (n := 0xD800) rfl rfl leastHigh
  obtain ⟨bottom, hbottom, bottom_eq⟩ :=
    Word.exists_sub? (b := 0xDC00) (n := 0xDC00) rfl rfl leastLow
  obtain ⟨shifted, hshifted, shifted_eq⟩ :=
    Word.exists_mul? (b := 0x400) (n := 0x400) top_eq rfl (by omega)
  obtain ⟨sum, hsum, sum_eq⟩ :=
    Word.exists_add? (a := 0x10000) (m := 0x10000) rfl shifted_eq (by omega)
  obtain ⟨number, hnumber, number_eq⟩ :=
    Word.exists_add? sum_eq bottom_eq (by omega)
  simp only [pair?, htop, hbottom, hshifted, hsum, Option.bind_eq_bind, Option.bind_some, hnumber,
    Option.map_some, number_eq]
  rfl

end Units

/-- A place in a text, counted in words. -/
structure Place where
  offset : UInt32
  line : UInt32
  column : UInt32
  deriving DecidableEq, Repr

namespace Place

def position (p : Place) : Position := ⟨p.offset.toNat, p.line.toNat, p.column.toNat⟩

def start : Place := ⟨0, 1, 1⟩

@[simp] theorem start_position : start.position = .start := rfl

def step? (p : Place) (c : Char) : Option Place := do
  let offset ← Word.add? p.offset 1
  if c = '\n' then
    let line ← Word.add? p.line 1
    return ⟨offset, line, 1⟩
  else
    let column ← Word.add? p.column 1
    return ⟨offset, p.line, column⟩

/-- The place after a stretch of text. -/
def after? (p : Place) (text : Text) : Option Place := text.foldlM step? p

end Place

/-- There is room for so many more code points behind a position. -/
structure Position.HasRoom (p : Position) (room : Nat) : Prop where
  offset : p.offset + room < 2 ^ 32
  line : p.line + room < 2 ^ 32
  column : p.column + room < 2 ^ 32

theorem Position.hasRoom_start {room : Nat} (few : room < 2 ^ 32 - 1) :
    Position.start.HasRoom room := by
  constructor
  all_goals
    simp only [Position.start]
    omega

/-- Each code point takes one from the room. -/
theorem Position.HasRoom.step {p : Position} {room : Nat} (h : p.HasRoom (room + 1)) (c : Char) :
    (p.step c).HasRoom room := by
  obtain ⟨offset, line, column⟩ := h
  unfold Position.step
  split <;> constructor <;> simp only <;> omega

/-- One step in words is one step of the position that they count. -/
theorem Place.exists_step? {p : Place} {room : Nat} (h : p.position.HasRoom (room + 1)) (c : Char) :
    ∃ next, p.step? c = some next ∧ next.position = p.position.step c := by
  obtain ⟨offsetRoom, lineRoom, columnRoom⟩ := h
  simp only [position] at offsetRoom lineRoom columnRoom
  obtain ⟨offset, hoffset, offset_eq⟩ :=
    Word.exists_add? (a := p.offset) (b := 1) (n := 1) rfl rfl (by omega)
  obtain ⟨line, hline, line_eq⟩ :=
    Word.exists_add? (a := p.line) (b := 1) (n := 1) rfl rfl (by omega)
  obtain ⟨column, hcolumn, column_eq⟩ :=
    Word.exists_add? (a := p.column) (b := 1) (n := 1) rfl rfl (by omega)
  by_cases feed : c = '\n'
  · refine ⟨⟨offset, line, 1⟩, ?_, ?_⟩
    · simp only [step?, hoffset, hline, feed, if_true, Option.bind_eq_bind, Option.bind_some]
      rfl
    · simp only [position, Position.step, feed, if_true, offset_eq, line_eq]
      rfl
  · refine ⟨⟨offset, p.line, column⟩, ?_, ?_⟩
    · simp only [step?, hoffset, hcolumn, feed, if_false, Option.bind_eq_bind, Option.bind_some]
      rfl
    · simp only [position, Position.step, feed, if_false, offset_eq, column_eq]

theorem Place.exists_after? {p : Place} {text : Text} (h : p.position.HasRoom text.length) :
    ∃ next, p.after? text = some next ∧ next.position = p.position.after text := by
  induction text generalizing p with
  | nil => exact ⟨p, rfl, rfl⟩
  | cons c text ih =>
      obtain ⟨next, hnext, placed⟩ := exists_step? h c
      have room := h.step c
      rw [← placed] at room
      obtain ⟨last, hlast, reached⟩ := ih room
      refine ⟨last, ?_, ?_⟩
      · rw [after?, List.foldlM_cons, hnext]
        exact hlast
      · rw [reached, placed]
        rfl

@[simp] theorem Place.after?_append (p : Place) (first second : Text) :
    p.after? (first ++ second) = (p.after? first).bind fun next => next.after? second :=
  List.foldlM_append

namespace Reader

open CodePoint

/-- The number of an escape, in words. -/
def hexWord? : Nat → UInt32 → Scan (Option UInt32)
  | 0, word => do
      let c ← next
      unread c
      return some word
  | room + 1, word => do
      let c ← next
      match c.bind hexValue? with
      | some d =>
          match Word.push? word d with
          | some longer => hexWord? room longer
          | none => return none
      | none =>
          if c.any isWhitespace then return some word
          else
            unread c
            return some word

theorem hexValue?_lt {c : Char} {d : Nat} (h : hexValue? c = some d) : d < 16 := by
  unfold hexValue? at h
  split at h
  · next digit =>
      rw [Char.isDigit_iff_toNat] at digit
      have : c.toNat ≤ 57 := digit.2
      cases h
      omega
  · split at h
    · next lower =>
        have : c.toNat ≤ 102 := lower.2
        cases h
        omega
    · split at h
      · next upper =>
          have : c.toNat ≤ 70 := upper.2
          cases h
          omega
      · cases h

/-- As long as the digits that there is room for cannot outgrow a word, all goes as with unbounded
numbers: the same code points are taken and given back, and the same failures met. -/
theorem hexWord?_eq {room : Nat} {word : UInt32} (h : (word.toNat + 1) * 16 ^ room ≤ 2 ^ 32) :
    Option.map UInt32.toNat <$> hexWord? room word = some <$> hexDigits room word.toNat := by
  induction room generalizing word with
  | zero => simp only [hexWord?, hexDigits, map_bind, map_pure, Option.map_some]
  | succ room ih =>
      simp only [hexWord?, hexDigits, map_bind]
      refine bind_congr fun c => ?_
      cases found : c.bind hexValue? with
      | none =>
          simp only
          split <;> simp only [map_bind, map_pure, Option.map_some]
      | some d =>
          obtain ⟨first, -, isDigit⟩ := Option.bind_eq_some_iff.mp found
          have small := hexValue?_lt isDigit
          have positive : 1 ≤ 16 ^ room := Nat.one_le_pow room 16 (by decide)
          have grows : (word.toNat * 16 + d + 1) * 16 ^ room ≤ 2 ^ 32 := by
            refine Nat.le_trans ?_ h
            rw [Nat.pow_succ', ← Nat.mul_assoc]
            exact Nat.mul_le_mul_right _ (by omega)
          have fits : word.toNat * 16 + d < 2 ^ 32 :=
            Nat.le_trans (Nat.le_mul_of_pos_right _ positive) grows
          obtain ⟨longer, hlonger, longer_eq⟩ := Word.exists_push? fits
          simp only [hlonger]
          rw [← longer_eq] at grows ⊢
          exact ih grows

/-- The six digits of an escape fit a word. -/
theorem hexWord?_of_digit {c : Char} {digit : Nat} (h : hexValue? c = some digit) :
    Option.map UInt32.toNat <$> hexWord? 5 (.ofNat digit) = some <$> hexDigits 5 digit := by
  have small := hexValue?_lt h
  have word : (UInt32.ofNat digit).toNat = digit :=
    UInt32.toNat_ofNat_of_lt (Nat.lt_trans small (by decide))
  have room : ((UInt32.ofNat digit).toNat + 1) * 16 ^ 5 ≤ 2 ^ 32 := by
    rw [word]
    exact Nat.le_trans (Nat.mul_le_mul_right _ small) (by decide)
  have digits := hexWord?_eq room
  rwa [word] at digits

end Reader

end CssSyntax
