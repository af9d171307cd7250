import CssSyntax.Proofs.Identifiers
import CssSyntax.Proofs.Stretches
import CssSyntax.Token

/-!
What arrives at a destination. Where it makes no difference in which pieces a text is put, writing
a token puts its CSS text. So a destination that takes only so much is left with exactly the front
of that text for which it has room, and says whether that is all of it.
-/

namespace CssSyntax

namespace Destination

variable {σ : Type}

/-- It makes no difference in which pieces a text is put. -/
structure Sequential (dest : Destination σ) : Prop where
  nothing : dest.put [] = pure ()
  append (front rest : Text) : dest.put (front ++ rest) = do dest.put front; dest.put rest

theorem sequential_growing : growing.Sequential where
  nothing := by
    funext kept
    exact congrArg (EStateM.Result.ok ()) (List.append_nil kept)
  append front rest := by
    funext kept
    exact congrArg (EStateM.Result.ok ()) (List.append_assoc kept front rest).symm

theorem sequential_limited (limit : Nat) : (limited limit).Sequential where
  nothing := rfl
  append _ _ := List.forM_append

/-- Putting a text to a destination that takes only so much. -/
theorem limited_put {limit : Nat} {kept : Text} (within : kept.length ≤ limit) (text : Text) :
    (limited limit).put text kept =
      if (kept ++ text).length ≤ limit then .ok () (kept ++ text)
      else .error .refused ((kept ++ text).take limit) := by
  induction text generalizing kept with
  | nil =>
      rw [List.append_nil, if_pos within]
      rfl
  | cons c text ih =>
      have step : (limited limit).put (c :: text) kept =
          (do keepWithin limit c; (limited limit).put text) kept := rfl
      by_cases room : kept.length < limit
      · have keeps : keepWithin limit c kept = .ok () (kept ++ [c]) := if_pos room
        have more : (kept ++ [c]).length ≤ limit := by
          rw [List.length_append]
          exact room
        rw [List.append_cons, ← ih more, step]
        simp only [bind, EStateM.bind, keeps]
      · have refuses : keepWithin limit c kept = .error .refused kept := if_neg room
        have full : kept.length = limit := Nat.le_antisymm within (Nat.le_of_not_lt room)
        have tooLong : ¬(kept ++ c :: text).length ≤ limit := by
          rw [List.length_append, List.length_cons]
          omega
        rw [step, if_neg tooLong, ← full, List.take_left]
        simp only [bind, EStateM.bind, full, refuses]

theorem Sequential.pieces {dest : Destination σ} (seq : dest.Sequential) (pieces : List Text) :
    pieces.forM dest.put = dest.put pieces.flatten := by
  induction pieces with
  | nil => exact seq.nothing.symm
  | cons piece pieces ih =>
      rw [List.flatten_cons, seq.append, ← ih]
      rfl

end Destination

open Destination

section Sequential

variable {σ : Type} {dest : Destination σ} (seq : dest.Sequential)

include seq

namespace Escape

theorem putNumber_eq (c : Char) : putNumber dest c = dest.put (byNumber c) := by
  simp only [putNumber, ← seq.append]
  rfl

theorem putItself_eq (c : Char) : putItself dest c = dest.put (byItself c) := by
  simp only [putItself, ← seq.append]
  rfl

section Stretches

variable {form? : Char → Option Text} {escape? : Char → Option (Writing σ Unit)}
  (same : ∀ c, escape? c = (form? c).map dest.put) (only : OnlyAscii form?)

include same only

/-- The stretches from `run` on put that run, and behind it the written form of the rest. -/
theorem forM_stretches (front run rest : Text) :
    (stretches escape? (Text.byteLength front) (Text.byteLength (front ++ run)) rest.utf8).forM
        (Stretch.write dest (front ++ run ++ rest)) =
      dest.put (run ++ replace form? rest) := by
  have writes {whole part : Text} {stretch : Stretch σ}
      (span : whole.IsSpan stretch.start stretch.stop part) :
      stretch.write dest whole = (do dest.put part; stretch.behind) := by
    rw [Stretch.write, span.slice_eq]
  refine stretches_induction (only.of_map same) (motive := fun front run rest found =>
    found.forM (Stretch.write dest (front ++ run ++ rest)) =
      dest.put (run ++ replace form? rest)) ?_ ?_ ?_ front run rest
  · intro front run
    calc
      _ = (do
            Stretch.write dest (front ++ run ++ []) ⟨_, _, pure ()⟩
            pure ()) := rfl
      _ = dest.put (run ++ replace form? []) := by
        rw [writes (Text.isSpan_run front run [])]
        simp [replace]
  · intro front run c rest found plain ih
    have itself : form? c = none := by simpa [same] using plain
    simpa [replace, itself] using ih
  · intro front run c rest escape found has ih
    obtain ⟨form, written, rfl⟩ := Option.map_eq_some_iff.mp ((same c).symm.trans has)
    have later : front ++ run ++ c :: rest = front ++ run ++ [c] ++ [] ++ rest := by simp
    have forms : replace form? (c :: rest) = form ++ replace form? rest := by
      simp [replace, written]
    rw [← later] at ih
    calc
      _ = (do
            Stretch.write dest (front ++ run ++ c :: rest) ⟨_, _, dest.put form⟩
            found.forM (Stretch.write dest (front ++ run ++ c :: rest))) := rfl
      _ = (do
            dest.put run
            dest.put form
            dest.put (replace form? rest)) := by
        rw [writes (Text.isSpan_run front run (c :: rest)), ih, bind_assoc]
        rfl
      _ = dest.put (run ++ replace form? (c :: rest)) := by rw [forms, seq.append, seq.append]

theorem write_eq (text : Text) : write dest escape? text = dest.put (replace form? text) :=
  forM_stretches seq same only [] [] text

end Stretches

/-- What is written with escapes may be written one part after another. -/
theorem sequential_of_eq {form? : Char → Option Text} {write : Text → Writing σ Unit}
    (writes : ∀ text, write text = dest.put (replace form? text)) :
    Destination.Sequential ⟨write⟩ where
  nothing := (writes []).trans seq.nothing
  append front rest := by
    have parts : replace form? (front ++ rest) = replace form? front ++ replace form? rest :=
      List.flatMap_append
    change write (front ++ rest) = (do write front; write rest)
    rw [writes, writes, writes, parts, seq.append]

end Escape

namespace Name

theorem escape?_eq (c : Char) : escape? dest c = (form? c).map dest.put := by
  simp only [escape?, form?]
  split
  · rfl
  · split
    · exact congrArg some (Escape.putNumber_eq seq c)
    · exact congrArg some (Escape.putItself_eq seq c)

theorem write_eq (name : Text) : write dest name = dest.put (written name) := by
  rw [written_eq]
  exact Escape.write_eq seq (escape?_eq seq) onlyAscii_form? name

end Name

namespace Identifier

theorem writeTail_eq (name : Text) : writeTail dest name = dest.put (tail name).flatten := by
  cases name with
  | nil => exact seq.nothing.symm
  | cons c rest =>
      simp only [writeTail, tail]
      split
      · rw [Escape.putNumber_eq seq, Name.write_eq seq, ← seq.append]
        rfl
      · exact Name.write_eq seq (c :: rest)

theorem write_eq (name : Text) : write dest name = dest.put (written name) := by
  rw [written]
  fun_cases pieces name with
  | case1 => rfl
  | case2 rest =>
      rw [write, Name.write_eq seq, ← seq.append]
      rfl
  | case3 rest lone twice =>
      rw [write, writeTail_eq seq, ← seq.append]
      · rfl
      · exact lone
      · exact twice
  | case4 name lone twice once =>
      rw [write, writeTail_eq seq]
      · exact lone
      · exact twice
      · exact once

end Identifier

namespace Url

theorem escape?_eq (c : Char) : escape? dest c = (form? c).map dest.put := by
  simp only [escape?, form?]
  split
  · exact congrArg some (Escape.putNumber_eq seq c)
  · split
    · exact congrArg some (Escape.putItself_eq seq c)
    · rfl

theorem writeContent_eq (content : Text) :
    writeContent dest content = dest.put (contentPieces content).flatten := by
  rw [flatten_contentPieces]
  exact Escape.write_eq seq (escape?_eq seq) onlyAscii_form? content

end Url

namespace Quoted

theorem escape?_eq (c : Char) : escape? dest c = (form? c).map dest.put := by
  simp only [escape?, form?]
  split
  · rfl
  · split
    · rfl
    · split
      · exact congrArg some (Escape.putNumber_eq seq c)
      · rfl

theorem inside_put (content : Text) :
    (inside dest).put content = dest.put (contentPieces content).flatten := by
  rw [flatten_contentPieces]
  exact Escape.write_eq seq (escape?_eq seq) onlyAscii_form? content

/-- Putting chunks one after another into a string, up to the first that is refused. -/
theorem inside_chunks (chunks : List Text) :
    chunks.forM (inside dest).put = dest.put (chunks.flatMap contentPieces).flatten := by
  induction chunks with
  | nil => exact seq.nothing.symm
  | cons chunk chunks ih =>
      rw [List.flatMap_cons, List.flatten_append, seq.append, ← ih, ← inside_put seq]
      rfl

theorem write_eq (content : Text) : write dest content = dest.put (pieces content).flatten := by
  simp only [write, pieces, inside_put seq, ← seq.append, List.flatten_cons, List.flatten_append,
    List.flatten_nil, List.append_nil, List.cons_append]

end Quoted

namespace Numeric

theorem writeNumber_eq (n : Numeric) : n.writeNumber dest = dest.put n.numberPieces.flatten := by
  simp only [writeNumber, numberPieces]
  cases n.intValue? with
  | some i =>
      simp only
      split <;> split <;> simp [← seq.append]
  | none =>
      simp only
      split <;> split <;> simp [← seq.append]

theorem writeUnit_eq (unit : Text) : writeUnit dest unit = dest.put (unitPieces unit).flatten := by
  unfold writeUnit unitPieces
  split
  · rw [Name.write_eq seq, ← seq.append]
    rfl
  · exact Identifier.write_eq seq unit

theorem write_eq (n : Numeric) (kind : Kind) :
    n.write dest kind = dest.put (n.pieces kind).flatten := by
  unfold write pieces
  rw [writeNumber_eq seq, List.flatten_append, seq.append]
  apply congrArg (dest.put n.numberPieces.flatten >>= ·)
  funext _
  cases kind with
  | percentage => rfl
  | dimension =>
      cases n.unit with
      | none => exact seq.nothing.symm
      | some unit => exact writeUnit_eq seq unit
  | _ => exact seq.nothing.symm

end Numeric

/-- Writing a token puts its CSS text, however many pieces it is written in. -/
theorem Lexeme.write_eq (lexeme : Lexeme) : lexeme.write dest = dest.put lexeme.css := by
  have name (value : Text) : Name.write dest value = dest.put (Name.pieces value).flatten :=
    Name.write_eq seq value
  have identifier (value : Text) :
      Identifier.write dest value = dest.put (Identifier.pieces value).flatten :=
    Identifier.write_eq seq value
  obtain ⟨kind, value, numeric, isIdLike⟩ := lexeme
  cases kind with
  | ident => exact identifier value
  | function => simp [write, css, pieces, identifier, seq.append]
  | atKeyword => simp [write, css, pieces, identifier, ← seq.append]
  | hash => cases isIdLike <;> simp [write, css, pieces, identifier, name, ← seq.append]
  | string => exact Quoted.write_eq seq value
  | badString => simp [write, css, pieces, Quoted.inside_put seq, ← seq.append]
  | url => simp [write, css, pieces, Url.writeContent_eq seq, ← seq.append]
  | badUrl => simp [write, css, pieces, ← seq.append]
  | comment => simp [write, css, pieces, ← seq.append]
  | number | percentage | dimension =>
      cases numeric with
      | none => simp [write, css, pieces]
      | some numeric => simp [write, css, pieces, numeric.write_eq seq]
  | endOfInput => exact seq.nothing.symm
  | _ => simp [write, css, pieces]

end Sequential

/-- A text is delivered, in whatever pieces. All of it arrives where there is room for it. Otherwise
just as much of its front arrives as there is room for, and the refusal is handed on. -/
structure Delivers (writing : Destination Text → Writing Text Unit) (text : Text) : Prop where
  growing : deliver (writing growing) = .complete text
  limited (limit : Nat) :
    deliver (writing (limited limit)) =
      if text.length ≤ limit then .complete text else .full (text.take limit)

/-- What is put as if it were in one piece is delivered. -/
theorem delivers_of_eq {writing : Destination Text → Writing Text Unit} {text : Text}
    (same : ∀ dest : Destination Text, dest.Sequential → writing dest = dest.put text) :
    Delivers writing text where
  growing := by
    rw [same _ sequential_growing]
    rfl
  limited limit := by
    rw [deliver, same _ (sequential_limited limit), limited_put (Nat.zero_le limit),
      List.nil_append]
    by_cases fits : text.length ≤ limit
    · simp only [if_pos fits]
    · simp only [if_neg fits]

/-- Every token, name, identifier, string and url, and every list of chunks put into a string up to
the first refusal, leaves a destination that takes `limit` code points with its whole text, if that
has no more of them, and otherwise with exactly the first of them and a refusal. -/
theorem delivers_written :
    (∀ token : Token, Delivers (fun dest => token.write dest) token.css) ∧
      (∀ value, Delivers (fun dest => Identifier.write dest value) (Identifier.written value)) ∧
      (∀ value, Delivers (fun dest => Name.write dest value) (Name.written value)) ∧
      (∀ value, Delivers (fun dest => Quoted.write dest value) (Quoted.pieces value).flatten) ∧
      (∀ value,
        Delivers (fun dest => Url.writeContent dest value) (Url.contentPieces value).flatten) ∧
      ∀ chunks : List Text,
        Delivers (fun dest => chunks.forM (Quoted.inside dest).put)
          (chunks.flatMap Quoted.contentPieces).flatten := by
  refine ⟨fun token => ?_, fun value => ?_, fun value => ?_, fun value => ?_, fun value => ?_,
    fun chunks => ?_⟩
  · exact delivers_of_eq fun _ seq => token.toLexeme.write_eq seq
  · exact delivers_of_eq fun _ seq => Identifier.write_eq seq value
  · exact delivers_of_eq fun _ seq => Name.write_eq seq value
  · exact delivers_of_eq fun _ seq => Quoted.write_eq seq value
  · exact delivers_of_eq fun _ seq => Url.writeContent_eq seq value
  · exact delivers_of_eq fun _ seq => Quoted.inside_chunks seq chunks

/-- A name, the content of a url and the inside of a string are written code point by code point,
each in its own form and none depending on another. What is copied in one piece is cut out between
code points, whatever the text. So a string may be put in chunks or at once, and a name or a url may
be written one part after another. -/
theorem writes_each_code_point {σ : Type} {dest : Destination σ} (seq : dest.Sequential) :
    (∀ name,
      Name.write dest name = dest.put (name.flatMap fun c => (Name.form? c).getD [c])) ∧
    (∀ content,
      Url.writeContent dest content =
        dest.put (content.flatMap fun c => (Url.form? c).getD [c])) ∧
    (∀ content,
      (Quoted.inside dest).put content =
        dest.put (content.flatMap fun c => (Quoted.form? c).getD [c])) ∧
    (∀ escape? ∈ [Name.escape? dest, Url.escape? dest, Quoted.escape? dest], ∀ text : Text,
      ∀ stretch ∈ Escape.stretches escape? 0 0 text.utf8,
        text.IsSpan stretch.start stretch.stop (text.slice stretch.start stretch.stop)) ∧
    (∀ chunks : List Text,
      chunks.forM (Quoted.inside dest).put = (Quoted.inside dest).put chunks.flatten) ∧
    (∀ front rest,
      Name.write dest (front ++ rest) = (do
        Name.write dest front
        Name.write dest rest)) ∧
    ∀ front rest,
      Url.writeContent dest (front ++ rest) = (do
        Url.writeContent dest front
        Url.writeContent dest rest) := by
  have name (text : Text) : Name.write dest text = dest.put (Escape.replace Name.form? text) :=
    Escape.write_eq seq (Name.escape?_eq seq) Name.onlyAscii_form? text
  have url (text : Text) :
      Url.writeContent dest text = dest.put (Escape.replace Url.form? text) :=
    Escape.write_eq seq (Url.escape?_eq seq) Url.onlyAscii_form? text
  have inside (text : Text) :
      (Quoted.inside dest).put text = dest.put (Escape.replace Quoted.form? text) :=
    Escape.write_eq seq (Quoted.escape?_eq seq) Quoted.onlyAscii_form? text
  refine ⟨name, url, inside, ?_, ?_, ?_, ?_⟩
  · intro escape? mem text
    apply Escape.isSpan_of_mem_stretches
    simp only [List.mem_cons, List.not_mem_nil, or_false] at mem
    rcases mem with rfl | rfl | rfl
    · exact Name.onlyAscii_form?.of_map (Name.escape?_eq seq)
    · exact Url.onlyAscii_form?.of_map (Url.escape?_eq seq)
    · exact Quoted.onlyAscii_form?.of_map (Quoted.escape?_eq seq)
  · exact (Escape.sequential_of_eq seq inside).pieces
  · exact (Escape.sequential_of_eq seq name).append
  · exact (Escape.sequential_of_eq seq url).append

/-- Escapes of both forms between code points of one to four bytes. -/
theorem writes_each_code_point_mixed :
    let name : Text := ['é', '(', '€', '\x01', '𝄞']
    growing.Sequential ∧
      deliver (Name.write growing name) =
        .complete ['é', '\\', '(', '€', '\\', '1', ' ', '𝄞'] := by
  intro name
  refine ⟨sequential_growing, ?_⟩
  rw [(writes_each_code_point sequential_growing).1]
  decide

end CssSyntax
