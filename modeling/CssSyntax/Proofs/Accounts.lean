import CssSyntax.Proofs.Streams

/-!
What a reader has read is accounted for: the text before its token, the text taken for that token
and the text given back make up all that its normalizer has given, and its position counts the
first of the three. A failure comes only when nothing is given back or held.
-/

namespace CssSyntax

namespace Reader

/-- The reader stands behind `committed` in the text that its source gives. -/
structure Behind (source : Source) (committed : Text) (r : Reader) : Prop where
  gave : Normalizer.Gave source (committed ++ r.taken.reverse ++ r.ahead) r.input
  position : r.position = .after .start committed

def Accounted (source : Source) (r : Reader) : Prop := ∃ committed, Behind source committed r

theorem accounted_ofSource (source : Source) : Accounted source (ofSource source) :=
  ⟨[], Normalizer.gave_nothing source, rfl⟩

variable {source : Source} {committed : Text} {r after : Reader}

theorem Behind.take {c : Option Char} (h : Behind source committed r)
    (hnext : next r = .ok c after) :
    Behind source committed after := by
  obtain ⟨gave, position⟩ := h
  obtain ⟨input, ahead, taken, start⟩ := r
  cases ahead with
  | cons d ahead =>
      simp only [next] at hnext
      cases hnext
      exact ⟨by simpa using gave, position⟩
  | nil =>
      simp only [next] at hnext
      split at hnext
      · next d input' hread =>
          cases hnext
          exact ⟨by simpa using gave.ok hread, position⟩
      · next input' hread =>
          cases hnext
          exact ⟨by simpa using gave.ok hread, position⟩
      · cases hnext

theorem Behind.giveBack {c : Option Char} (h : Behind source committed r)
    (hunread : unread c r = .ok () after) : Behind source committed after := by
  cases c with
  | none =>
      cases hunread
      exact h
  | some c =>
      obtain ⟨gave, position⟩ := h
      obtain ⟨taken, htaken, rfl⟩ := unread_eq_ok hunread
      exact ⟨by simpa [htaken] using gave, position⟩

theorem Behind.moves (moves : Moves r after) (h : Behind source committed r) :
    Behind source committed after := by
  induction moves with
  | refl => exact h
  | take _ hnext ih => exact ih.take hnext
  | giveBack _ hunread ih => exact ih.giveBack hunread

/-- Where a source fails, everything before the failure is taken, and nothing is held. -/
theorem Behind.fail {stop : Stop} (h : Behind source committed r)
    (hnext : next r = .error stop after) :
    Behind source committed after ∧ after.ahead = [] ∧
      after.input = .ofSource after.input.source := by
  obtain ⟨f, input, _, rfl, _, empty, hread⟩ := next_error hnext
  exact ⟨⟨h.gave.error hread, h.position⟩, empty, Normalizer.eq_ofSource_of_error hread⟩

theorem Behind.begin (h : Behind source committed r) :
    Behind source (committed ++ r.taken.reverse) r.begin := by
  refine ⟨by simpa [Reader.begin] using h.gave, ?_⟩
  rw [Position.after_append, ← h.position]
  rfl

/-- What stands in front of a reader is normal, the text given back as well as the text to come. -/
theorem Behind.isNormal_text (h : Behind source committed r) : r.text.IsNormal :=
  Text.isNormal_append.mpr
    ⟨(Text.isNormal_append.mp h.gave.isNormal).2, Normalizer.isNormal_text r.input⟩

/-- Behind a failure, the next token begins after all that the source gave, with nothing given back
or held. -/
theorem Behind.begin_of_fail {stop : Stop} (h : Behind source committed r)
    (hnext : next r = .error stop after) :
    ∃ returned, Normalizer.Gave source returned after.input ∧
      after.begin = (ofSource after.input.source).placed (.after .start returned) := by
  obtain ⟨behind, empty, held⟩ := h.fail hnext
  refine ⟨committed ++ after.taken.reverse, by simpa [empty] using behind.gave, ?_⟩
  rw [Position.after_append, ← behind.position, placed, ofSource, ← held]
  simp [Reader.begin, empty]

end Reader

namespace TokenStream

open Reader (Behind)

/-- One call keeps account of what is read. -/
theorem behind_next {source : Source} {committed : Text} {stream : TokenStream}
    (h : Behind source committed stream.reader.begin) :
    Behind source committed stream.next.stream.reader := by
  obtain ⟨reader, moves, _, hnext⟩ | ⟨stop, reader, last, moves, hfail, hnext⟩ := next_cases stream
  · rw [hnext]
    exact h.moves moves
  · rw [hnext]
    exact ((h.moves moves).fail hfail).1

/-- All calls keep account of what is read. -/
theorem accounted_after (source : Source) (reporter : Reporter) (count : Nat) :
    ((ofSource source reporter).after count).reader.Accounted source := by
  induction count with
  | zero => exact Reader.accounted_ofSource source
  | succ count ih =>
      obtain ⟨committed, h⟩ := ih
      rw [after_succ]
      exact ⟨_, behind_next h.begin⟩

/-- A failing call leaves a stream that begins its next token after all that the source gave. -/
theorem begin_of_error {source : Source} {reporter : Reporter} {count : Nat} {stop : Stop}
    (h : ((ofSource source reporter).call count).result = .error stop) :
    let failed := ((ofSource source reporter).call count).stream
    ∃ returned, Normalizer.Gave source returned failed.reader.input ∧
      failed.reader.begin =
        (Reader.ofSource failed.intoSource).placed (.after .start returned) := by
  obtain ⟨committed, behind⟩ := accounted_after source reporter count
  obtain ⟨reader, _, _, hnext⟩ | ⟨stop, reader, last, moves, hfail, hnext⟩ :=
    next_cases ((ofSource source reporter).after count)
  · rw [call, hnext] at h
    cases h
  · rw [call, hnext]
    exact (behind.begin.moves moves).begin_of_fail hfail

end TokenStream

end CssSyntax
