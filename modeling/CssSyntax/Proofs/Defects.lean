import CssSyntax.Proofs.Places
import CssSyntax.Proofs.Requests
import CssSyntax.Proofs.Words

/-!
No run goes wrong. Every step that checks its own use finds it right, whatever was asked for before
and however it ended, and everything that is counted stays within words of 32 bits as long as the
source gives no more code points than they can count.
-/

namespace CssSyntax

/-- All code points that the normalizer gives of a source. -/
def Source.codePoints (source : Source) : Text :=
  Normalizer.codePoints (Normalizer.ofSource source).readToEnd.1

namespace Normalizer

/-- What any number of reads give is the beginning of all that there is. -/
theorem isPrefix_codePoints_readMany (count : Nat) (n : Normalizer) :
    codePoints (readMany count n).1 <+: codePoints n.readToEnd.1 := by
  fun_induction readToEnd n generalizing count with
  | case1 n after hread =>
      obtain ⟨rfl, rfl⟩ := eq_of_end hread
      have nothing : codePoints (readMany count (.ofSource [])).1 = [] := by
        induction count with
        | zero => rfl
        | succ count ih => exact ih
      rw [nothing]
      exact List.nil_prefix
  | case2 n c after hread later ih =>
      cases count with
      | zero => exact List.nil_prefix
      | succ count =>
          rw [readMany_of_ok hread]
          exact List.cons_prefix_cons.mpr ⟨rfl, ih count⟩
  | case3 n f after hread later ih =>
      cases count with
      | zero => exact List.nil_prefix
      | succ count =>
          rw [readMany_of_error hread]
          exact ih count

/-- A normalizer never gives more than all that there is. -/
theorem Gave.length_le {source : Source} {text : Text} {n : Normalizer} (h : Gave source text n) :
    text.length ≤ source.codePoints.length := by
  obtain ⟨count, -, rfl⟩ := h
  exact (isPrefix_codePoints_readMany count (.ofSource source)).length_le

end Normalizer

/-- A literal has a value if it is a numeral as a whole, with a digit before its point. -/
theorem Numeral.exists_valueOf?_iff {literal : Text} :
    (∃ value, valueOf? literal = some value) ↔
      ∃ n : Numeral, n.WellFormed ∧ n.whole ≠ [] ∧ literal = n.text := by
  constructor
  · rintro ⟨value, h⟩
    unfold valueOf? at h
    split at h
    · next n hread =>
        obtain ⟨split, wf, -⟩ := read_eq_some_iff.mp hread
        split at h
        · cases h
        · next digit => exact ⟨n, wf, digit, by simpa using split⟩
    · cases h
  · rintro ⟨n, wf, digit, rfl⟩
    have whole : read n.text = some (n, []) :=
      read_eq_some_iff.mpr ⟨(List.append_nil _).symm, wf, endsBefore_nil n⟩
    refine ⟨n.value, ?_⟩
    rw [valueOf?, whole]
    exact if_neg digit

namespace Reader

variable {α : Type} {r : Reader}

/-- A scan finds itself misused. -/
def IsMisused (scan : Scan α) (r : Reader) : Prop :=
  ∃ defect after, scan r = .error (.defect defect) after

/-- What reads the text in front of it is never misused, and fails only where the source does. -/
theorem Yields.not_isMisused {scan : Scan α} {a : α} {rest : Text} (h : Yields scan r a rest) :
    ¬IsMisused scan r := by
  rintro ⟨defect, after, misused⟩
  have outcome := h.outcome
  rw [misused] at outcome
  obtain ⟨last, -, hnext⟩ := outcome
  obtain ⟨f, input, isFailure, -⟩ := next_error hnext
  cases isFailure

theorem unread_isMisused_iff (c : Char) (r : Reader) :
    IsMisused (unread (some c)) r ↔ r.taken.head? ≠ some c := by
  cases taken : r.taken with
  | nil =>
      simp only [IsMisused, unread, taken]
      exact iff_of_true ⟨_, _, rfl⟩ (by simp)
  | cons last rest =>
      by_cases same : last = c
      · simp [IsMisused, unread, taken, same]
      · simp [IsMisused, unread, taken, same]

theorem escape_isMisused_iff (r : Reader) :
    IsMisused escape r ↔ ∃ c after, next r = .ok c after ∧ (c = none ∨ c = some '\n') := by
  constructor
  · intro misused
    have missing : Escape.read r.text = none := by
      cases found : Escape.read r.text with
      | none => rfl
      | some found => exact absurd misused (yields_escape found).not_isMisused
    obtain ⟨c, after, hnext, htext, -⟩ | ⟨after, hnext, -⟩ | ⟨f, input, hnext, -⟩ := next_cases r
    · refine ⟨some c, after, hnext, .inr ?_⟩
      rw [htext] at missing
      rcases Escape.read_eq_none_iff.mp missing with ended | feed
      · cases ended
      · exact feed
    · exact ⟨none, after, hnext, .inl rfl⟩
    · obtain ⟨defect, stopped, h⟩ := misused
      simp only [escape, Bind.bind, EStateM.bind, hnext] at h
      cases h
  · rintro ⟨c, after, hnext, rfl | rfl⟩
    all_goals
      refine ⟨.noEscape, after, ?_⟩
      simp only [escape, Bind.bind, EStateM.bind, hnext]
      rfl

theorem literalValue_isMisused_iff (literal : Text) (r : Reader) :
    IsMisused (literalValue literal) r ↔
      ¬∃ n : Numeral, n.WellFormed ∧ n.whole ≠ [] ∧ Numeral.canonical literal = n.text := by
  rw [← Numeral.exists_valueOf?_iff]
  unfold literalValue
  cases Numeral.valueOf? (Numeral.canonical literal) with
  | none => exact iff_of_true ⟨.noNumeral literal, r, rfl⟩ (by simp)
  | some value => exact iff_of_false (yields_pure r value).not_isMisused (by simp)

/-- The steps that check how they are used, and when each of them finds itself misused: when it is
to give back what was not taken last, when no escape comes next, and when a literal is no numeral.
-/
structure ChecksUse : Prop where
  unread (c : Char) (r : Reader) : IsMisused (unread (some c)) r ↔ r.taken.head? ≠ some c
  escape (r : Reader) :
    IsMisused escape r ↔ ∃ c after, next r = .ok c after ∧ (c = none ∨ c = some '\n')
  literalValue (literal : Text) (r : Reader) :
    IsMisused (literalValue literal) r ↔
      ¬∃ n : Numeral, n.WellFormed ∧ n.whole ≠ [] ∧ Numeral.canonical literal = n.text

theorem checksUse : ChecksUse :=
  ⟨unread_isMisused_iff, escape_isMisused_iff, literalValue_isMisused_iff⟩

end Reader

namespace TokenStream

/-- A call is stopped by failures of the source alone. -/
theorem result_next_ne_defect (stream : TokenStream) (defect : Defect) :
    stream.next.result ≠ .error (.defect defect) := by
  cases hlexeme : Reader.lexeme stream.reader.begin with
  | ok taken reader =>
      rw [next_of_ok hlexeme]
      intro h
      cases h
  | error stop reader =>
      rw [next_of_error hlexeme]
      intro h
      cases h
      exact (Reader.reads_lexeme stream.reader.begin).not_isMisused ⟨defect, reader, hlexeme⟩

theorem result_answer_ne_defect (stream : TokenStream) (request : Request) (defect : Defect) :
    (stream.answer request).result ≠ some (.error (.defect defect)) := by
  intro h
  obtain idle | ⟨finished, answered⟩ := answer_cases stream request
  · rw [idle] at h
    cases h
  · rw [answered] at h
    exact result_next_ne_defect stream defect (Option.some.inj h)

open Reader (Behind)

/-- What is behind a reader and what it has taken can be counted in words. -/
theorem exists_place {source : Source} {committed : Text} {r : Reader}
    (few : source.codePoints.length < 2 ^ 32 - 1) (behind : Behind source committed r) :
    ∃ place : Place, place.position = r.position ∧
      (place.after? r.taken.reverse).map Place.position = some r.begin.position := by
  have bound := behind.gave.length_le
  rw [List.length_append] at bound
  have room : Position.start.HasRoom (committed ++ r.taken.reverse).length :=
    Position.hasRoom_start (by omega)
  have before : Position.start.HasRoom committed.length := by
    rw [List.length_append] at bound
    exact Position.hasRoom_start (by omega)
  obtain ⟨place, hplace, placed⟩ := Place.exists_after? (p := .start) before
  obtain ⟨last, hlast, reached⟩ := Place.exists_after? (p := .start) room
  rw [Place.after?_append, hplace, Option.bind_some] at hlast
  refine ⟨place, placed.trans behind.position.symm, ?_⟩
  rw [hlast, Option.map_some, reached, Place.start_position, Position.after_append,
    ← behind.position]
  rfl

/-- As long as a source gives fewer code points than words of 32 bits can count, no sequence of
requests runs into a defect, be it behind failures or behind the end. The places are counted within
words, and so are the numbers of surrogate pairs and of escapes. -/
theorem run_meets_no_defect {source : Source} (few : source.codePoints.length < 2 ^ 32 - 1)
    (reporter : Reporter) (asked : List Request) :
    let stream := (ofSource source reporter).afterAll asked
    (∀ request defect, (stream.answer request).result ≠ some (.error (.defect defect))) ∧
      Reader.ChecksUse ∧
      (∃ place : Place, place.position = stream.reader.position ∧
        (place.after? stream.reader.taken.reverse).map Place.position =
          some stream.reader.begin.position) ∧
      (∀ high low, Units.isHigh high → Units.isLow low →
        (Units.pair? high low).map (fun word => CodePoint.ofNumber word.toNat) =
          some (Units.pair high low)) ∧
      ∀ c digit, CodePoint.hexValue? c = some digit →
        Option.map UInt32.toNat <$> Reader.hexWord? 5 (.ofNat digit) =
          some <$> Reader.hexDigits 5 digit := by
  intro stream
  obtain ⟨count, finished, same⟩ := exists_afterAll (ofSource source reporter) asked
  have behind := behind_committed source reporter count
  refine ⟨result_answer_ne_defect stream, Reader.checksUse, ?_, ?_, ?_⟩
  · change stream = _ at same
    rw [same]
    exact exists_place few behind
  · intro high low isHigh isLow
    exact Units.pair?_eq isHigh isLow
  · intro c digit isDigit
    exact Reader.hexWord?_of_digit isDigit

/-- A failure in the middle of an escape, and the calls behind it. -/
theorem run_meets_no_defect_behind_failure :
    let source : Source :=
      [.unit 0x22, .unit 0x5C, .failure ⟨"interrupted"⟩, .unit 0x0A, .unit 0xD83D]
    let stream := (ofSource source .discarding).afterAll [.iterate, .iterate, .next]
    source.codePoints.length < 2 ^ 32 - 1 ∧
      ∀ request defect, (stream.answer request).result ≠ some (.error (.defect defect)) := by
  intro source stream
  have few : source.codePoints.length < 2 ^ 32 - 1 := by decide +kernel
  exact ⟨few, (run_meets_no_defect few .discarding [.iterate, .iterate, .next]).1⟩

end TokenStream

end CssSyntax
