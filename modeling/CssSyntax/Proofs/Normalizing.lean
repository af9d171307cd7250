import CssSyntax.Normalizer

/-!
What a normalizer gives before the end of the input or the next failure, which failures are still
to come, and what it has given so far.
-/

namespace CssSyntax

/-- The failures of a source, in order. -/
def Source.failures (source : Source) : List Failure :=
  source.filterMap fun
    | .failure f => some f
    | .unit _ => none

/-- Units in front of a source bring no failures. -/
@[simp] theorem Source.failures_append (units : List UInt32) (source : Source) :
    Source.failures (units.map .unit ++ source) = source.failures := by
  simp [Source.failures]

@[simp] theorem Source.failures_units (units : List UInt32) :
    Source.failures (units.map .unit) = [] := by
  simp [Source.failures]

namespace Normalizer

/-- The text that comes before the end of the input or the next failure. -/
def text (n : Normalizer) : Text :=
  match _h : n.read with
  | .ok (some c) after => c :: text after
  | _ => []
termination_by n.remaining
decreasing_by exact remaining_lt_of_ok _h

theorem text_of_ok {n after : Normalizer} {c : Char} (h : n.read = .ok (some c) after) :
    n.text = c :: after.text := by
  rw [text]
  split
  · next d next hread =>
      rw [h] at hread
      cases hread
      rfl
  · next hread => exact absurd h (hread c after)

theorem text_of_error {n after : Normalizer} {f : Failure} (h : n.read = .error f after) :
    n.text = [] := by
  rw [text]
  split
  · next hread =>
      rw [h] at hread
      cases hread
  · rfl

theorem interpret_ne_end (unit : UInt32) (source : Source) (after : Normalizer) :
    interpret unit source ≠ .ok none after := by
  intro h
  have := remaining_interpret_le unit source
  rw [h] at this
  exact absurd this.1 (by simp)

theorem length_text_le (n : Normalizer) : n.text.length ≤ n.remaining := by
  fun_induction text n with
  | case1 n c after hread ih =>
      have := remaining_lt_of_ok hread
      rw [List.length_cons]
      omega
  | case2 => exact Nat.zero_le _

/-- Only an exhausted source is at its end, and it stays there. -/
theorem eq_of_end {n after : Normalizer} (h : n.read = .ok none after) :
    n = .ofSource [] ∧ after = .ofSource [] := by
  obtain ⟨source, held⟩ := n
  cases held with
  | some unit => exact absurd h (interpret_ne_end unit source after)
  | none =>
      cases source with
      | nil =>
          cases h
          exact ⟨rfl, rfl⟩
      | cons item rest =>
          cases item with
          | failure f => cases h
          | unit unit => exact absurd h (interpret_ne_end unit rest after)

theorem text_of_end {n after : Normalizer} (h : n.read = .ok none after) :
    n.text = [] ∧ after.text = [] := by
  have ended : (ofSource []).text = [] := by
    rw [text]
    rfl
  obtain ⟨rfl, rfl⟩ := eq_of_end h
  exact ⟨ended, ended⟩

/-- A failing read leaves nothing held back. -/
theorem eq_ofSource_of_error {n after : Normalizer} {f : Failure} (h : n.read = .error f after) :
    after = .ofSource after.source := by
  have interpreted (unit : UInt32) (source : Source) (h : interpret unit source = .error f after) :
      after = .ofSource after.source := by
    unfold interpret pairHigh foldReturn at h
    split at h
    · split at h
      · cases h
        rfl
      · cases h
      · split at h <;> cases h
    · split at h
      · split at h <;> cases h
        rfl
      · split at h <;> cases h
  obtain ⟨source, held⟩ := n
  cases held with
  | some unit => exact interpreted unit source h
  | none =>
      cases source with
      | nil => cases h
      | cons item rest =>
          cases item with
          | failure f =>
              cases h
              rfl
          | unit unit => exact interpreted unit rest h

/-- A read takes units of its source, and a failure if it comes to one. -/
theorem source_read (n : Normalizer) :
    ∃ units : List UInt32, match n.read with
      | .ok _ after => n.source = units.map .unit ++ after.source
      | .error f after => n.source = units.map .unit ++ .failure f :: after.source := by
  have behind (unit : UInt32) (source : Source) :
      ∃ units : List UInt32, match interpret unit source with
        | .ok _ after => source = units.map .unit ++ after.source
        | .error f after => source = units.map .unit ++ .failure f :: after.source := by
    by_cases high : Units.isHigh unit
    · rw [interpret, if_pos high, pairHigh]
      cases source with
      | nil => exact ⟨[], rfl⟩
      | cons item rest =>
          cases item with
          | failure f => exact ⟨[], rfl⟩
          | unit next =>
              refine ⟨[next], ?_⟩
              by_cases low : Units.isLow next <;> simp [Source.read, low]
    · by_cases feed : unit = 0x0D
      · rw [interpret, if_neg high, if_pos feed, foldReturn]
        cases source with
        | nil => exact ⟨[], rfl⟩
        | cons item rest =>
            cases item with
            | failure f => exact ⟨[], rfl⟩
            | unit next => exact ⟨[next], rfl⟩
      · rw [interpret, if_neg high, if_neg feed]
        refine ⟨[], ?_⟩
        by_cases form : unit = 0x0C
        · rw [if_pos form]
          rfl
        · rw [if_neg form]
          rfl
  obtain ⟨source, held⟩ := n
  cases held with
  | some unit => exact behind unit source
  | none =>
      cases source with
      | nil => exact ⟨[], rfl⟩
      | cons item rest =>
          cases item with
          | failure f => exact ⟨[], rfl⟩
          | unit unit =>
              obtain ⟨units, taken⟩ := behind unit rest
              have first : (Normalizer.mk (.unit unit :: rest) none).read = interpret unit rest :=
                rfl
              refine ⟨unit :: units, ?_⟩
              rw [first]
              cases h : interpret unit rest <;> rw [h] at taken <;> exact congrArg _ taken

/-- Reading code points leaves the failures that are still to come, and a failing read takes the
first of them. -/
theorem failures_read (n : Normalizer) :
    match n.read with
    | .ok _ after => after.source.failures = n.source.failures
    | .error f after => n.source.failures = f :: after.source.failures := by
  obtain ⟨units, taken⟩ := source_read n
  cases h : n.read with
  | ok c after =>
      rw [h] at taken
      rw [taken, Source.failures_append]
  | error f after =>
      rw [h] at taken
      rw [taken, Source.failures_append]
      rfl

theorem failures_of_ok {n after : Normalizer} {c : Option Char} (h : n.read = .ok c after) :
    after.source.failures = n.source.failures := by
  have := failures_read n
  rwa [h] at this

theorem failures_of_error {n after : Normalizer} {f : Failure} (h : n.read = .error f after) :
    n.source.failures = f :: after.source.failures := by
  have := failures_read n
  rwa [h] at this

/-- Without failures, reading to the end gives the text and then the end. -/
theorem readToEnd_of_no_failures (n : Normalizer) (h : n.source.failures = []) :
    n.readToEnd.1 = n.text.map (fun c => .ok (some c)) ++ [.ok none] := by
  fun_induction readToEnd n with
  | case1 n after hread => simp [text_of_end hread]
  | case2 n c after hread later ih =>
      rw [text_of_ok hread, List.map_cons, List.cons_append]
      exact congrArg _ (ih ((failures_of_ok hread).trans h))
  | case3 n f after hread later ih =>
      rw [failures_of_error hread] at h
      cases h

/-- The code points among the results of reading. -/
def codePoints (results : List (Except Failure (Option Char))) : Text :=
  results.filterMap fun
    | .ok c => c
    | .error _ => none

/-- The normalizer of a source has come to the state `n` by reading, and has given `text` on the
way. -/
def Gave (source : Source) (text : Text) (n : Normalizer) : Prop :=
  ∃ count, (readMany count (.ofSource source)).2 = n ∧
    codePoints (readMany count (.ofSource source)).1 = text

theorem readMany_of_ok {n after : Normalizer} {c : Option Char} (h : n.read = .ok c after)
    (count : Nat) :
    readMany (count + 1) n = (.ok c :: (readMany count after).1, (readMany count after).2) := by
  rw [readMany, h]

theorem readMany_of_error {n after : Normalizer} {f : Failure} (h : n.read = .error f after)
    (count : Nat) :
    readMany (count + 1) n = (.error f :: (readMany count after).1, (readMany count after).2) := by
  rw [readMany, h]

/-- One more read comes last. -/
theorem readMany_succ (count : Nat) (n : Normalizer) :
    readMany (count + 1) n =
      match (readMany count n).2.read with
      | .ok c after => ((readMany count n).1 ++ [.ok c], after)
      | .error f after => ((readMany count n).1 ++ [.error f], after) := by
  induction count generalizing n with
  | zero =>
      simp only [readMany]
      cases n.read <;> rfl
  | succ count ih =>
      cases h : n.read with
      | ok c after =>
          rw [readMany_of_ok h, ih after, readMany_of_ok h]
          cases (readMany count after).2.read <;> rfl
      | error f after =>
          rw [readMany_of_error h, ih after, readMany_of_error h]
          cases (readMany count after).2.read <;> rfl

theorem gave_nothing (source : Source) : Gave source [] (.ofSource source) := ⟨0, rfl, rfl⟩

theorem Gave.ok {source : Source} {text : Text} {n after : Normalizer} {c : Option Char}
    (h : Gave source text n) (hread : n.read = .ok c after) :
    Gave source (text ++ c.toList) after := by
  obtain ⟨count, rfl, rfl⟩ := h
  refine ⟨count + 1, ?_, ?_⟩
  · rw [readMany_succ, hread]
  · rw [readMany_succ, hread]
    cases c <;> simp [codePoints]

theorem Gave.error {source : Source} {text : Text} {n after : Normalizer} {f : Failure}
    (h : Gave source text n) (hread : n.read = .error f after) : Gave source text after := by
  obtain ⟨count, rfl, rfl⟩ := h
  refine ⟨count + 1, ?_, ?_⟩
  · rw [readMany_succ, hread]
  · rw [readMany_succ, hread]
    simp [codePoints]

theorem readMany_add (first later : Nat) (n : Normalizer) :
    readMany (first + later) n =
      ((readMany first n).1 ++ (readMany later (readMany first n).2).1,
        (readMany later (readMany first n).2).2) := by
  induction later with
  | zero => simp [readMany]
  | succ later ih =>
      rw [← Nat.add_assoc, readMany_succ, readMany_succ, ih]
      cases (readMany later (readMany first n).2).2.read <;> simp

theorem remaining_readMany_le (count : Nat) (n : Normalizer) :
    (readMany count n).2.remaining ≤ n.remaining := by
  induction count generalizing n with
  | zero => exact Nat.le_refl _
  | succ count ih =>
      cases hread : n.read with
      | ok c after =>
          rw [readMany_of_ok hread]
          cases c with
          | none => exact Nat.le_trans (ih after) (remaining_le_of_end hread)
          | some c => exact Nat.le_trans (ih after) (Nat.le_of_lt (remaining_lt_of_ok hread))
      | error f after =>
          rw [readMany_of_error hread]
          exact Nat.le_trans (ih after) (Nat.le_of_lt (remaining_lt_of_error hread))

/-- Reads that come back to the state they started from gave nothing. -/
theorem codePoints_of_return {count : Nat} {n : Normalizer} (h : (readMany count n).2 = n) :
    codePoints (readMany count n).1 = [] := by
  induction count with
  | zero => rfl
  | succ count ih =>
      cases hread : n.read with
      | ok c after =>
          rw [readMany_of_ok hread] at h ⊢
          cases c with
          | none =>
              obtain ⟨rfl, rfl⟩ := eq_of_end hread
              exact ih h
          | some c =>
              have less := remaining_lt_of_ok hread
              have more := remaining_readMany_le count after
              rw [h] at more
              omega
      | error f after =>
          rw [readMany_of_error hread] at h
          have less := remaining_lt_of_error hread
          have more := remaining_readMany_le count after
          rw [h] at more
          omega

/-- What a normalizer has given is determined by the state it has come to. -/
theorem Gave.unique {source : Source} {text other : Text} {n : Normalizer}
    (h : Gave source text n) (h' : Gave source other n) : text = other := by
  have later (first second : Nat) (same : (readMany (first + second) (.ofSource source)).2 =
      (readMany first (.ofSource source)).2) :
      codePoints (readMany (first + second) (.ofSource source)).1 =
        codePoints (readMany first (.ofSource source)).1 := by
    rw [readMany_add] at same ⊢
    rw [codePoints, List.filterMap_append]
    exact (congrArg _ (codePoints_of_return same)).trans (List.append_nil _)
  obtain ⟨first, hfirst, rfl⟩ := h
  obtain ⟨second, hsecond, rfl⟩ := h'
  rcases Nat.le_total first second with le | le
  · obtain ⟨more, rfl⟩ := Nat.exists_eq_add_of_le le
    exact (later first more (hsecond.trans hfirst.symm)).symm
  · obtain ⟨more, rfl⟩ := Nat.exists_eq_add_of_le le
    exact later second more (hfirst.trans hsecond.symm)

end Normalizer

end CssSyntax
