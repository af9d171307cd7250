import CssSyntax.Proofs.Accounts
import Mathlib.Data.List.DropRight

/-!
Where tokens stand. A stream counts no place while it reads: only when a token begins does it count
the text taken for the one before. Even so, at every moment of every run the text put behind the
reader, the text taken since and the text given back make up what the normalizer has given, and
each token is the stretch of that text at its offset, with the line and column found there.
-/

namespace CssSyntax

/-- The offset counts code points, the line counts line feeds, and the column counts what stands
behind the last of them. -/
theorem Position.after_start (text : Text) :
    Position.start.after text =
      ⟨text.length, 1 + text.count '\n', 1 + (text.rtakeWhile (· ≠ '\n')).length⟩ := by
  induction text using List.reverseRecOn with
  | nil => rfl
  | append_singleton text c ih =>
      have last : (Position.start.after text).after [c] = (Position.start.after text).step c := rfl
      rw [after_append, last, ih, step]
      by_cases feed : c = '\n'
      · have ended : (text ++ [c]).rtakeWhile (· ≠ '\n') = [] :=
          List.rtakeWhile_concat_neg _ _ _ (by simp [feed])
        have one : (text ++ [c]).count '\n' = text.count '\n' + 1 := by simp [feed]
        rw [if_pos feed, ended, one, List.length_append, Nat.add_assoc]
        rfl
      · have longer :
            (text ++ [c]).rtakeWhile (· ≠ '\n') = text.rtakeWhile (· ≠ '\n') ++ [c] :=
          List.rtakeWhile_concat_pos _ _ _ (by simp [feed])
        have unchanged : (text ++ [c]).count '\n' = text.count '\n' := by simp [feed]
        rw [if_neg feed, longer, unchanged, List.length_append, List.length_append, Nat.add_assoc 1]
        rfl

/-- A token is a stretch of a text: the one that starts at its offset, in the line and the column
that the text before it ends in. -/
structure Token.LiesIn (token : Token) (text : Text) : Prop where
  inside : token.start.offset + token.representation.length ≤ text.length
  slice :
    (text.drop token.start.offset).take token.representation.length = token.representation
  line : token.start.line = 1 + (text.take token.start.offset).count '\n'
  column :
    token.start.column = 1 + ((text.take token.start.offset).rtakeWhile (· ≠ '\n')).length

theorem Token.liesIn_append {token : Token} {before : Text}
    (placed : token.start = .after .start before) (behind : Text) :
    token.LiesIn (before ++ token.representation ++ behind) := by
  rw [Position.after_start] at placed
  have offset : token.start.offset = before.length := by rw [placed]
  have front : (before ++ token.representation ++ behind).take token.start.offset = before := by
    rw [offset, List.append_assoc, List.take_left]
  constructor
  · rw [offset]
    simp
  · rw [offset, List.append_assoc, List.drop_left, List.take_left]
  · rw [front, placed]
  · rw [front, placed]

namespace TokenStream

open Reader (Moves Behind)

/-- The text that a number of calls have put behind the reader. Each call first puts there what is
still taken from the call before. -/
def committed (stream : TokenStream) : Nat → Text
  | 0 => []
  | count + 1 => stream.committed count ++ (stream.after count).reader.taken.reverse

theorem behind_committed (source : Source) (reporter : Reporter) (count : Nat) :
    let stream := ofSource source reporter
    Behind source (stream.committed count) (stream.after count).reader := by
  intro stream
  induction count with
  | zero => exact ⟨Normalizer.gave_nothing source, rfl⟩
  | succ count ih =>
      rw [after_succ]
      exact behind_next ih.begin

/-- What is behind the reader stays there. -/
theorem committed_prefix (stream : TokenStream) {first later : Nat} (le : first ≤ later) :
    stream.committed first <+: stream.committed later := by
  induction le with
  | refl => exact List.prefix_rfl
  | step _ ih => exact ih.trans (List.prefix_append _ _)

/-- A call that gives a token leaves its text taken and its place unchanged. -/
theorem reader_of_token {stream : TokenStream} {token : Token}
    (h : stream.next.result = .ok token) :
    stream.next.stream.reader.taken.reverse = token.representation ∧
      stream.next.stream.reader.position = token.start := by
  cases hlexeme : Reader.lexeme stream.reader.begin with
  | error stop reader =>
      rw [next_of_error hlexeme] at h
      cases h
  | ok taken reader =>
      obtain ⟨lexeme, unterminated⟩ := taken
      rw [next_of_ok hlexeme] at h ⊢
      cases h
      exact ⟨rfl, rfl⟩

/-- A token stands behind all that was behind the reader when it began, and its own text is put
there next. -/
theorem token_behind_committed {source : Source} {reporter : Reporter} {count : Nat} {token : Token}
    (h : ((ofSource source reporter).call count).result = .ok token) :
    let stream := ofSource source reporter
    token.start = .after .start (stream.committed (count + 1)) ∧
      stream.committed (count + 2) = stream.committed (count + 1) ++ token.representation := by
  intro stream
  obtain ⟨text, place⟩ := reader_of_token h
  change (stream.call count).stream.reader.taken.reverse = _ at text
  change (stream.call count).stream.reader.position = _ at place
  rw [← after_succ] at text place
  constructor
  · rw [← place]
    exact (behind_committed source reporter (count + 1)).position
  · rw [← text]
    rfl

/-- The text of a token is normal, also behind failures. -/
theorem isNormal_representation {source : Source} {reporter : Reporter} {count : Nat}
    {token : Token} (h : ((ofSource source reporter).call count).result = .ok token) :
    token.representation.IsNormal := by
  obtain ⟨text, -⟩ := reader_of_token h
  change ((ofSource source reporter).call count).stream.reader.taken.reverse = _ at text
  rw [← after_succ] at text
  have normal := (behind_committed source reporter (count + 1)).gave.isNormal
  rw [text] at normal
  exact (Text.isNormal_append.mp (Text.isNormal_append.mp normal).1).2

/-- At every moment of a run, between two calls and in the course of one, the text put behind the
reader, the text taken since and the text given back are what the normalizer has given so far, and
every token of the run is the stretch of that text at its place. Failures make no difference. -/
theorem run_keeps_places (source : Source) (reporter : Reporter) (count : Nat) :
    let stream := ofSource source reporter
    let reader := (stream.after count).reader
    (∀ returned, Normalizer.Gave source returned reader.input ↔
      returned = stream.committed count ++ reader.taken.reverse ++ reader.ahead) ∧
    (∀ moved, Moves reader.begin moved →
      ∀ returned, Normalizer.Gave source returned moved.input ↔
        returned = stream.committed (count + 1) ++ moved.taken.reverse ++ moved.ahead) ∧
    ∀ returned, Normalizer.Gave source returned reader.input →
      ∀ earlier < count, ∀ token, (stream.call earlier).result = .ok token →
        token.LiesIn returned := by
  intro stream reader
  have behind : Behind source (stream.committed count) reader :=
    behind_committed source reporter count
  have accounted {committed : Text} {r : Reader} (h : Behind source committed r)
      (returned : Text) : Normalizer.Gave source returned r.input ↔
        returned = committed ++ r.taken.reverse ++ r.ahead :=
    ⟨fun gave => gave.unique h.gave, fun whole => whole ▸ h.gave⟩
  refine ⟨accounted behind, fun moved moves => accounted (behind.begin.moves moves), ?_⟩
  intro returned gave earlier before token result
  obtain ⟨place, text⟩ := token_behind_committed result
  have le : earlier + 2 ≤ count + 1 := Nat.succ_le_succ before
  obtain ⟨rest, later⟩ := stream.committed_prefix le
  have whole :
      returned = stream.committed (earlier + 1) ++ token.representation ++ (rest ++ reader.ahead) :=
    calc
      returned = stream.committed (count + 1) ++ reader.ahead := (accounted behind returned).mp gave
      _ = stream.committed (earlier + 2) ++ rest ++ reader.ahead := by rw [later]
      _ = _ := by rw [text, List.append_assoc _ rest]
  rw [whole]
  exact token.liesIn_append place _

end TokenStream

end CssSyntax
