import CssSyntax.Proofs.NormalForm

/-!
Normalizing a source that fails. Up to a failure, a normalizer gives the normal form of the units
before it, but for the last of them if that one still waits for the next. It hands the failure on,
and then reads what stands behind it as if nothing had been before.
-/

namespace CssSyntax

namespace Units

/-- A unit that is understood only together with the one after it. -/
def isPending (unit : UInt32) : Bool := isHigh unit || unit == 0x0D

/-- The units without the last one, if that one still waits for the next. -/
def settled (units : List UInt32) : List UInt32 :=
  if units.getLast?.any isPending then units.dropLast else units

@[simp] theorem settled_cons_cons (unit next : UInt32) (rest : List UInt32) :
    settled (unit :: next :: rest) = unit :: settled (next :: rest) := by
  simp only [settled, List.getLast?_cons_cons, List.dropLast_cons_cons]
  split <;> rfl

@[simp] theorem settled_cons {unit : UInt32} (h : isPending unit = false) (rest : List UInt32) :
    settled (unit :: rest) = unit :: settled rest := by
  cases rest with
  | nil => simp [settled, h]
  | cons next rest => exact settled_cons_cons unit next rest

/-- What is left begins as before, if anything is left. -/
theorem head?_settled (units : List UInt32) :
    ∀ unit ∈ (settled units).head?, unit ∈ units.head? := by
  intro unit first
  match units with
  | [] => exact first
  | [last] =>
      unfold settled at first
      split at first
      · cases first
      · exact first
  | last :: next :: rest => rwa [settled_cons_cons] at first

/-- One unit is left out at most, and only one that waits for the next. -/
theorem settled_cases (units : List UInt32) :
    settled units = units ∨
      ∃ unit, units = settled units ++ [unit] ∧ (unit = 0x0D ∨ isHigh unit) := by
  by_cases pending : units.getLast?.any isPending
  · right
    obtain ⟨unit, last, waits⟩ := (Option.any_eq_true _ _).mp pending
    obtain ⟨front, split⟩ := List.getLast?_eq_some_iff.mp last
    rw [settled, if_pos pending, split, List.dropLast_concat]
    refine ⟨unit, rfl, ?_⟩
    simpa [isPending, or_comm] using waits
  · exact .inl (if_neg pending)

theorem not_isPending {unit : UInt32} (low : ¬isHigh unit) (noReturn : unit ≠ 0x0D) :
    isPending unit = false := by
  simp [isPending, low, noReturn]

theorem isPending_of_isLow {unit : UInt32} (low : isLow unit) : isPending unit = false := by
  simp only [isLow, Bool.and_eq_true, decide_eq_true_eq, UInt32.le_iff_toNat_le] at low
  have least : (0xDC00 : UInt32).toNat = 0xDC00 := rfl
  refine not_isPending ?_ ?_
  · have most : (0xDBFF : UInt32).toNat = 0xDBFF := rfl
    simp only [isHigh, Bool.and_eq_true, decide_eq_true_eq, UInt32.le_iff_toNat_le]
    omega
  · rintro rfl
    exact absurd low.1 (by decide)

end Units

namespace Normalizer

variable {failure : Failure} {behind : Source}

@[simp] theorem text_before_failure : (ofSource (.failure failure :: behind)).text = [] :=
  text_of_error rfl

/-- A unit that still waits when the source fails is lost. -/
theorem text_of_pending {unit : UInt32} (h : Units.isPending unit) :
    (ofSource (.unit unit :: .failure failure :: behind)).text = [] := by
  have fails : interpret unit (.failure failure :: behind) = .error failure (.ofSource behind) := by
    by_cases high : Units.isHigh unit
    · rw [interpret, if_pos high]
      rfl
    · have feed : unit = 0x0D := by simpa [Units.isPending, high] using h
      rw [interpret, if_neg high, if_pos feed]
      rfl
  exact text_of_error fails

theorem text_of_high_apart {high : UInt32} (h : Units.isHigh high) {units : List UInt32}
    (apart : ∀ next ∈ units.head?, ¬Units.isLow next) :
    (ofSource (.unit high :: units.map .unit)).text =
      replacement :: (ofSource (units.map .unit)).text := by
  cases units with
  | nil => exact text_of_ok (if_pos h)
  | cons next rest => exact (text_of_high h next _).trans (if_neg (apart next rfl))

theorem text_of_return_apart {units : List UInt32} (apart : 0x0A ∉ units.head?) :
    (ofSource (.unit 0x0D :: units.map .unit)).text =
      '\n' :: (ofSource (units.map .unit)).text := by
  cases units with
  | nil =>
      have read : (ofSource [.unit 0x0D]).read = .ok (some '\n') (.ofSource []) := rfl
      exact text_of_ok read
  | cons next rest =>
      have other : next ≠ 0x0A := fun feed => apart (by rw [feed]; rfl)
      exact (text_of_return next _).trans (if_neg other)

/-- The text before a failure is the normal form of the units before it, without one that still
waits for the next. -/
@[simp] theorem text_of_units_failure (units : List UInt32) :
    (ofSource (units.map .unit ++ .failure failure :: behind)).text =
      Units.normalize (Units.settled units) := by
  rw [← text_ofSource_units]
  have ended : (ofSource []).text = [] := (text_of_end rfl).1
  fun_induction Units.decode units with
  | case1 => exact text_before_failure.trans ended.symm
  | case2 unit =>
      by_cases pending : Units.isPending unit
      · have nothing : Units.settled [unit] = [] := by simp [Units.settled, pending]
        rw [nothing]
        exact (text_of_pending pending).trans ended.symm
      · obtain ⟨low, noReturn⟩ : ¬Units.isHigh unit ∧ unit ≠ 0x0D := by
          simpa [Units.isPending] using pending
        rw [Units.settled_cons (Units.not_isPending low noReturn)]
        simp only [List.map_cons, List.cons_append]
        rw [text_of_plain low noReturn, text_of_plain low noReturn]
        exact congrArg _ (text_before_failure.trans ended.symm)
  | case3 unit next rest h ih =>
      obtain ⟨high, low⟩ := Bool.and_eq_true_iff.mp h
      rw [Units.settled_cons_cons, Units.settled_cons (Units.isPending_of_isLow low)]
      simp only [List.map_cons, List.cons_append]
      rw [text_of_high high, if_pos low, text_of_high high, if_pos low, ih]
  | case4 unit next rest h ih =>
      rw [Units.settled_cons_cons]
      have first := Units.head?_settled (next :: rest)
      simp only [List.map_cons, List.cons_append] at ih ⊢
      by_cases high : Units.isHigh unit
      · have low : ¬Units.isLow next := by simpa [high] using h
        rw [text_of_high high, if_neg low, ih, text_of_high_apart high]
        intro unit found
        cases first unit found
        exact low
      · by_cases feed : unit = 0x0D
        · subst feed
          rw [text_of_return]
          by_cases newline : next = 0x0A
          · subst newline
            rw [Units.settled_cons (by decide)] at ih ⊢
            simp only [List.map_cons] at ih ⊢
            rw [text_of_plain (by decide) (by decide), text_of_plain (by decide) (by decide)] at ih
            rw [if_pos trivial, text_of_return, if_pos rfl]
            exact ih
          · rw [if_neg newline, ih, text_of_return_apart]
            exact fun found => newline (Option.some.inj (first _ found))
        · rw [text_of_plain high feed, text_of_plain high feed, ih]

/-- In front of a failure, what is left of the source when units have been taken. -/
theorem exists_left {taken before : List UInt32} {rest : Source}
    (h : taken.map .unit ++ rest = before.map .unit ++ .failure failure :: behind) :
    ∃ left : List UInt32, rest = left.map .unit ++ .failure failure :: behind := by
  induction taken generalizing before with
  | nil => exact ⟨before, h⟩
  | cons unit taken ih =>
      cases before with
      | nil => cases h
      | cons first before => exact ih (List.cons.inj h).2

/-- As long as a failure is to come, a read gives a code point or hands that failure on. -/
theorem read_towards_failure {n : Normalizer} {before : List UInt32}
    (h : n.source = before.map .unit ++ .failure failure :: behind) :
    (∃ c after, n.read = .ok (some c) after ∧
      ∃ left : List UInt32, after.source = left.map .unit ++ .failure failure :: behind) ∨
    n.read = .error failure (.ofSource behind) := by
  obtain ⟨taken, htaken⟩ := source_read n
  cases hread : n.read with
  | error f after =>
      rw [hread] at htaken
      obtain ⟨left, split⟩ := exists_left (htaken.symm.trans h)
      cases left with
      | cons unit left => cases split
      | nil =>
          cases split
          rw [eq_ofSource_of_error hread]
          exact .inr rfl
  | ok c after =>
      rw [hread] at htaken
      have left := exists_left (htaken.symm.trans h)
      cases c with
      | some c => exact .inl ⟨c, after, rfl, left⟩
      | none =>
          rw [(eq_of_end hread).2] at left
          obtain ⟨left, split⟩ := left
          exact absurd split (by simp [ofSource])

/-- Reading up to a failure gives the text before it and then the failure, and nothing stays
held. -/
theorem readMany_to_failure {n : Normalizer} {before : List UInt32}
    (h : n.source = before.map .unit ++ .failure failure :: behind) :
    readMany (n.text.length + 1) n =
      (n.text.map (fun c => .ok (some c)) ++ [.error failure], .ofSource behind) := by
  fun_induction text n generalizing before with
  | case1 n c after hread ih =>
      obtain ⟨d, next, given, left, hleft⟩ | failed := read_towards_failure h
      · rw [hread] at given
        cases given
        rw [List.length_cons, readMany_of_ok hread, ih hleft]
        rfl
      · rw [hread] at failed
        cases failed
  | case2 n ended =>
      obtain ⟨c, after, given, -⟩ | failed := read_towards_failure h
      · exact absurd given (ended c after)
      · rw [List.length_nil, readMany_of_error failed]
        rfl

/-- Reads that have not come to the end are the first of those that do. -/
theorem readToEnd_eq_append {count : Nat} {n : Normalizer}
    (going : .ok none ∉ (readMany count n).1) :
    n.readToEnd.1 = (readMany count n).1 ++ (readMany count n).2.readToEnd.1 := by
  induction count generalizing n with
  | zero => rfl
  | succ count ih =>
      rw [readToEnd]
      cases hread : n.read with
      | error f after =>
          rw [readMany_of_error hread, List.mem_cons, not_or] at going
          rw [readMany_of_error hread, List.cons_append, ← ih going.2]
      | ok c after =>
          rw [readMany_of_ok hread, List.mem_cons, not_or] at going
          cases c with
          | none => exact absurd rfl going.1
          | some c => rw [readMany_of_ok hread, List.cons_append, ← ih going.2]

/-- The failures among the results of reading. -/
def failuresAmong (results : List (Except Failure (Option Char))) : List Failure :=
  results.filterMap fun
    | .ok _ => none
    | .error f => some f

/-- Every failure of the source is handed on once, in order. -/
@[simp] theorem failuresAmong_readToEnd (n : Normalizer) :
    failuresAmong n.readToEnd.1 = n.source.failures := by
  fun_induction readToEnd n with
  | case1 n after hread =>
      rw [(eq_of_end hread).1]
      rfl
  | case2 n c after hread later ih => exact ih.trans (failures_of_ok hread)
  | case3 n f after hread later ih =>
      rw [failures_of_error hread, ← ih]
      rfl

/-- Up to a failure, a normalizer gives the normal form of the units before it, all of them but for
the last if that is a carriage return or a high surrogate. Then it hands the failure on, and is in
the state of one that has only the rest of the source to read. So every failure is given once, in
order. -/
theorem readToEnd_across_failure (before : List UInt32) (failure : Failure) (behind : Source) :
    let given := (Units.normalize (Units.settled before)).map fun c => .ok (some c)
    let n := ofSource (before.map .unit ++ .failure failure :: behind)
    n.readToEnd.1 = given ++ .error failure :: (ofSource behind).readToEnd.1 ∧
      readMany (given.length + 1) n = (given ++ [.error failure], .ofSource behind) ∧
      (Units.settled before = before ∨
        ∃ last, before = Units.settled before ++ [last] ∧ (last = 0x0D ∨ Units.isHigh last)) ∧
      failuresAmong n.readToEnd.1 = failure :: behind.failures := by
  intro given n
  have reads : readMany (given.length + 1) n = (given ++ [.error failure], .ofSource behind) := by
    have upTo := readMany_to_failure (n := n) rfl
    rwa [text_of_units_failure, ← List.length_map] at upTo
  have going : .ok none ∉ (readMany (given.length + 1) n).1 := by
    rw [reads]
    simp [given]
  refine ⟨?_, reads, Units.settled_cases before, ?_⟩
  · rw [readToEnd_eq_append going, reads, List.append_assoc]
    rfl
  · rw [failuresAmong_readToEnd]
    exact Source.failures_append before _

end Normalizer

end CssSyntax
