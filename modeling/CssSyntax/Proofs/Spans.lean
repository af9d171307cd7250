import CssSyntax.Proofs.Reading
import CssSyntax.Proofs.Steps
import CssSyntax.Reader.Span

/-!
Each scan of a stretch of text reads what the text in front of the reader says, by the reading
function of its noun.
-/

namespace CssSyntax.Reader

open CodePoint

theorem takeWhile_eq (p : Char → Bool) (found : Text) :
    takeWhile p found = (do
      match ← next with
      | none => return found.reverse
      | some c =>
          if p c then takeWhile p (c :: found)
          else do
            unread (some c)
            return found.reverse) := by
  funext r
  rw [takeWhile]
  simp only [Bind.bind, EStateM.bind]
  split <;> simp_all
  · rfl
  · split <;> rfl

theorem yields_takeWhile (p : Char → Bool) (found : Text) (r : Reader) :
    Yields (takeWhile p found) r (found.reverse ++ r.text.takeWhile p) (r.text.dropWhile p) := by
  induction h : r.text generalizing r found with
  | nil =>
      rw [takeWhile_eq]
      refine (yields_next_of_nil h).bind fun s _ hs => ?_
      simpa [hs] using yields_pure s found.reverse
  | cons c rest ih =>
      rw [takeWhile_eq]
      refine (yields_next_of_cons h).bind fun s moves hs => ?_
      by_cases hp : p c
      · simp only [hp, if_true]
        simpa [hp] using ih (c :: found) s hs
      · simp only [hp]
        refine (yields_unread moves (by simp [h, hs])).bind fun t _ ht => ?_
        simpa [hp, ht, h] using yields_pure t found.reverse

theorem yields_hexDigits (room value : Nat) (r : Reader) :
    Yields (hexDigits room value) r (Escape.digits room value r.text).1
      (Escape.digits room value r.text).2 := by
  induction room generalizing value r with
  | zero =>
      rw [hexDigits]
      refine (yields_next r).bind fun s moves hs => ?_
      refine (yields_unread moves ?_).bind fun t _ ht => ?_
      · rw [hs]
        cases r.text <;> rfl
      · simpa [Escape.digits, ht] using yields_pure t value
  | succ room ih =>
      rw [hexDigits]
      cases h : r.text with
      | nil =>
          refine (yields_next_of_nil h).bind fun s moves hs => ?_
          refine (yields_unread moves (by simp [h, hs])).bind fun t _ ht => ?_
          simpa [Escape.digits, ht, h] using yields_pure t value
      | cons c rest =>
          refine (yields_next_of_cons h).bind fun s moves hs => ?_
          cases hd : hexValue? c with
          | some d => simpa [Escape.digits, hd, hs] using ih (value * 16 + d) s
          | none =>
              by_cases blank : isWhitespace c
              · simpa [Escape.digits, hd, blank, hs] using yields_pure s value
              · simp only [Option.bind_some, hd, Option.any_some, blank]
                refine (yields_unread moves (by simp [h, hs])).bind fun t _ ht => ?_
                simpa [Escape.digits, hd, blank, ht, h] using yields_pure t value

/-- Where an escape can be read, `escape` reads it. -/
theorem yields_escape {r : Reader} {e : Char} {rest : Text}
    (h : Escape.read r.text = some (e, rest)) : Yields escape r e rest := by
  cases htext : r.text with
  | nil => simp [htext, Escape.read] at h
  | cons c tail =>
      rw [htext] at h
      refine (yields_next_of_cons htext).bind fun s _ hs => ?_
      by_cases feed : c = '\n'
      · simp [Escape.read, feed] at h
      · cases hd : hexValue? c with
        | none =>
            simp only [Escape.read, feed, if_false, hd, Option.some.injEq, Prod.mk.injEq] at h
            obtain ⟨rfl, rfl⟩ := h
            simpa [feed, hd, hs] using yields_pure s c
        | some d =>
            simp only [Escape.read, feed, if_false, hd, Option.some.injEq, Prod.mk.injEq] at h
            obtain ⟨rfl, rfl⟩ := h
            simp only [feed, if_false, hd]
            have digits := yields_hexDigits 5 d s
            rw [hs] at digits
            refine digits.bind fun t _ ht => ?_
            simpa [ht] using yields_pure t (ofNumber (Escape.digits 5 d tail).1)

theorem yields_escape? (r : Reader) :
    Yields escape? r ((Escape.read r.text).map Prod.fst)
      (((Escape.read r.text).map Prod.snd).getD r.text) := by
  refine (yields_peek r).bind fun s _ hs => ?_
  rw [startsEscape_iff_read]
  cases h : Escape.read r.text with
  | none => simpa [hs] using yields_pure s none
  | some found =>
      simp only [Option.isSome_some, if_true]
      have read : Escape.read s.text = some (found.1, found.2) := by rw [hs, h]
      refine (yields_escape read).bind fun t _ ht => ?_
      simpa [ht] using yields_pure t (some found.1)

theorem name_eq (found : Text) :
    name found = (do
      match ← next with
      | none => return found.reverse
      | some c =>
          if isName c then name (c :: found)
          else if c = '\\' then
            match ← escape? with
            | some e => name (e :: found)
            | none => do
                unread (some c)
                return found.reverse
          else do
            unread (some c)
            return found.reverse) := by
  funext r
  rw [name]
  simp only [Bind.bind, EStateM.bind]
  split
  · next h => simp only [h]
  · next h =>
      simp only [h]
      rfl
  · next c after h =>
      simp only [h]
      split
      · rfl
      · split
        · split
          · next he => simp only [EStateM.bind, he]
          · next he => simp only [EStateM.bind, he]
          · next he => simp only [EStateM.bind, he]
        · rfl

theorem yields_name (found : Text) (r : Reader) :
    Yields (name found) r (found.reverse ++ (Name.read r.text).1) (Name.read r.text).2 := by
  generalize h : r.text = text
  rw [name_eq]
  fun_induction Name.read text generalizing r found with
  | case1 =>
      refine (yields_next_of_nil h).bind fun s _ hs => ?_
      simpa [hs] using yields_pure s found.reverse
  | case2 c rest isName inner ih =>
      refine (yields_next_of_cons h).bind fun s _ hs => ?_
      simp only [isName, if_true, name_eq (c :: found)]
      simpa using ih (c :: found) s hs
  | case3 rest e after hread inner notName ih =>
      refine (yields_next_of_cons h).bind fun s _ hs => ?_
      have escaped := yields_escape? s
      simp only [hs, hread, Option.map_some, Option.getD_some] at escaped
      simp only [notName, if_true]
      refine escaped.bind fun t _ ht => ?_
      simp only [name_eq (e :: found)]
      simpa using ih (e :: found) t ht
  | case4 rest hread notName =>
      refine (yields_next_of_cons h).bind fun s moves hs => ?_
      have escaped := yields_escape? s
      simp only [hs, hread, Option.map_none, Option.getD_none] at escaped
      simp only [notName, if_true]
      refine escaped.bind fun t more ht => ?_
      refine (yields_unread (moves.trans more) (by simp [h, ht])).bind fun u _ hu => ?_
      simpa [hu, h] using yields_pure u found.reverse
  | case5 c rest notName other =>
      refine (yields_next_of_cons h).bind fun s moves hs => ?_
      simp only [notName, other, if_false]
      refine (yields_unread moves (by simp [h, hs])).bind fun t _ ht => ?_
      simpa [ht, h] using yields_pure t found.reverse

theorem comment_eq (star : Bool) (found : Text) :
    comment star found = (do
      match ← next with
      | none => return (found.reverse, false)
      | some c =>
          if c = '/' ∧ star then return ((found.drop 1).reverse, true)
          else comment (c == '*') (c :: found)) := by
  funext r
  rw [comment]
  simp only [Bind.bind, EStateM.bind]
  split
  · next h => simp only [h]
  · next h =>
      simp only [h]
      rfl
  · next c after h =>
      simp only [h]
      split <;> rfl

/-- A star that has just been taken is read as if it were still there, since the slash of the
closing mark may follow it. -/
theorem yields_comment (star : Bool) (found : Text) (r : Reader) :
    let text := (if star then ['*'] else []) ++ r.text
    Yields (comment star ((if star then ['*'] else []) ++ found)) r
      (found.reverse ++ (Comment.read text).content, (Comment.read text).closed)
      (Comment.read text).rest := by
  induction h : r.text generalizing r star found with
  | nil =>
      rw [comment_eq]
      refine (yields_next_of_nil h).bind fun s _ hs => ?_
      cases star with
      | false => simpa [Comment.read, hs] using yields_pure s (found.reverse, false)
      | true => simpa [Comment.read, hs] using yields_pure s (('*' :: found).reverse, false)
  | cons c rest ih =>
      rw [comment_eq]
      refine (yields_next_of_cons h).bind fun s _ hs => ?_
      cases star with
      | false =>
          have notClosed : ¬(c = '/' ∧ false = true) := by simp
          simp only [notClosed, if_false]
          by_cases again : c = '*'
          · subst again
            simpa using ih true found s hs
          · have := ih false (c :: found) s hs
            have plain : (c == '*') = false := by simpa using again
            rw [plain]
            simpa [Comment.read_cons (fun both => again both.1)] using this
      | true =>
          by_cases closed : c = '/'
          · subst closed
            simpa [Comment.read, hs] using yields_pure s (found.reverse, true)
          · have step : Comment.read ('*' :: c :: rest) =
                { Comment.read (c :: rest) with
                  content := '*' :: (Comment.read (c :: rest)).content } :=
              Comment.read_cons fun both => closed (Option.some.inj both.2)
            simp only [closed, false_and, if_false]
            by_cases again : c = '*'
            · subst again
              simpa [step] using ih true ('*' :: found) s hs
            · have := ih false (c :: '*' :: found) s hs
              have plain : (c == '*') = false := by simpa using again
              rw [plain]
              simpa [step, Comment.read_cons (fun both => again both.1)] using this

theorem yields_stringEscape (r : Reader) :
    Yields stringEscape r ((Escape.read r.text).map Prod.fst)
      (((Escape.read r.text).map Prod.snd).getD (r.text.drop 1)) := by
  refine (yields_peek r).bind fun s _ hs => ?_
  cases h : r.text with
  | nil => simpa [Escape.read, hs, h] using yields_pure s none
  | cons c rest =>
      by_cases feed : c = '\n'
      · subst feed
        simp only [List.head?_cons, if_true]
        refine (yields_next_of_cons (hs.trans h)).bind fun t _ ht => ?_
        simpa [Escape.read, ht] using yields_pure t none
      · simp only [List.head?_cons, feed, if_false]
        cases hread : Escape.read (c :: rest) with
        | none => simp [Escape.read_eq_none_iff, feed] at hread
        | some found =>
            have escaped : Yields escape s found.1 found.2 :=
              yields_escape (by rw [hs, h, hread])
            refine escaped.bind fun t _ ht => ?_
            simpa [ht] using yields_pure t (some found.1)

theorem yields_remnantEscape (r : Reader) :
    Yields remnantEscape r
      (match Escape.read r.text with
        | some (e, _) => some e
        | none => if r.text = [] then none else some '\\')
      (((Escape.read r.text).map Prod.snd).getD r.text) := by
  refine (yields_peek r).bind fun s _ hs => ?_
  cases h : r.text with
  | nil => simpa [Escape.read, hs, h] using yields_pure s none
  | cons c rest =>
      by_cases feed : c = '\n'
      · subst feed
        simpa [Escape.read, hs, h] using yields_pure s (some '\\')
      · simp only [List.head?_cons, feed, if_false]
        cases hread : Escape.read (c :: rest) with
        | none => simp [Escape.read_eq_none_iff, feed] at hread
        | some found =>
            have escaped : Yields escape s found.1 found.2 :=
              yields_escape (by rw [hs, h, hread])
            refine escaped.bind fun t _ ht => ?_
            simpa [ht] using yields_pure t (some found.1)

theorem quoted_eq (quote : Char) (found : Text) :
    quoted quote found = (do
      match ← next with
      | none => return (found.reverse, .endOfInput)
      | some c =>
          if c = quote then return (found.reverse, .quote)
          else if c = '\n' then do
            unread (some c)
            return (found.reverse, .lineFeed)
          else if c = '\\' then do
            let e ← stringEscape
            quoted quote (e.toList ++ found)
          else quoted quote (c :: found)) := by
  funext r
  rw [quoted]
  simp only [Bind.bind, EStateM.bind]
  split
  · next h => simp only [h]
  · next h =>
      simp only [h]
      rfl
  · next c after h =>
      simp only [h]
      split
      · rfl
      · split
        · rfl
        · split
          · split
            · next he => simp only [EStateM.bind, he]
            · next he => simp only [EStateM.bind, he]
          · rfl

theorem yields_quoted (quote : Char) (found : Text) (r : Reader) :
    Yields (quoted quote found) r
      (found.reverse ++ (Quoted.read quote r.text).content, (Quoted.read quote r.text).ending)
      (Quoted.read quote r.text).rest := by
  generalize h : r.text = text
  rw [quoted_eq]
  fun_induction Quoted.read quote text generalizing r found with
  | case1 =>
      refine (yields_next_of_nil h).bind fun s _ hs => ?_
      simpa [hs] using yields_pure s (found.reverse, Quoted.Ending.endOfInput)
  | case2 rest =>
      refine (yields_next_of_cons h).bind fun s _ hs => ?_
      simpa [hs] using yields_pure s (found.reverse, Quoted.Ending.quote)
  | case3 rest notQuote =>
      refine (yields_next_of_cons h).bind fun s moves hs => ?_
      simp only [notQuote, if_true, if_false]
      refine (yields_unread moves (by simp [h, hs])).bind fun t _ ht => ?_
      simpa [ht, h] using yields_pure t (found.reverse, Quoted.Ending.lineFeed)
  | case4 rest e after hread inner notQuote notFeed ih =>
      refine (yields_next_of_cons h).bind fun s _ hs => ?_
      have escaped := yields_stringEscape s
      simp only [hs, hread, Option.map_some, Option.getD_some] at escaped
      simp only [notQuote, notFeed, if_true, if_false]
      refine escaped.bind fun t _ ht => ?_
      simp only [quoted_eq quote ((some e).toList ++ found)]
      simpa using ih (e :: found) t ht
  | case5 rest hread notQuote notFeed ih =>
      refine (yields_next_of_cons h).bind fun s _ hs => ?_
      have escaped := yields_stringEscape s
      simp only [hs, hread, Option.map_none, Option.getD_none] at escaped
      simp only [notQuote, notFeed, if_true, if_false]
      refine escaped.bind fun t _ ht => ?_
      simp only [quoted_eq quote (none.toList ++ found)]
      simpa using ih found t ht
  | case6 c rest notQuote notFeed notEscape inner ih =>
      refine (yields_next_of_cons h).bind fun s _ hs => ?_
      simp only [notQuote, notFeed, notEscape, if_false, quoted_eq quote (c :: found)]
      simpa using ih (c :: found) s hs

theorem remnants_eq (found : Text) :
    remnants found = (do
      match ← next with
      | none => return found.reverse
      | some c =>
          if c = ')' then return found.reverse
          else if c = '\\' then do
            let e ← remnantEscape
            remnants (e.toList ++ found)
          else remnants (c :: found)) := by
  funext r
  rw [remnants]
  simp only [Bind.bind, EStateM.bind]
  split
  · next h => simp only [h]
  · next h =>
      simp only [h]
      rfl
  · next c after h =>
      simp only [h]
      split
      · rfl
      · split
        · split
          · next he => simp only [EStateM.bind, he]
          · next he => simp only [EStateM.bind, he]
        · rfl

theorem yields_remnants (found : Text) (r : Reader) :
    Yields (remnants found) r (found.reverse ++ (Url.readRemnants r.text).1)
      (Url.readRemnants r.text).2 := by
  generalize h : r.text = text
  rw [remnants_eq]
  fun_induction Url.readRemnants text generalizing r found with
  | case1 =>
      refine (yields_next_of_nil h).bind fun s _ hs => ?_
      simpa [hs] using yields_pure s found.reverse
  | case2 rest =>
      refine (yields_next_of_cons h).bind fun s _ hs => ?_
      simpa [hs] using yields_pure s found.reverse
  | case3 rest e after hread inner notClosed ih =>
      refine (yields_next_of_cons h).bind fun s _ hs => ?_
      have escaped := yields_remnantEscape s
      simp only [hs, hread, Option.map_some, Option.getD_some] at escaped
      simp only [notClosed, if_true, if_false]
      refine escaped.bind fun t _ ht => ?_
      simp only [remnants_eq ((some e).toList ++ found)]
      simpa using ih (e :: found) t ht
  | case4 notClosed hread =>
      refine (yields_next_of_cons h).bind fun s _ hs => ?_
      have escaped := yields_remnantEscape s
      simp only [hs, hread, Option.map_none, Option.getD_none] at escaped
      simp only [notClosed, if_true, if_false]
      refine escaped.bind fun t _ ht => ?_
      rw [remnants_eq]
      refine (yields_next_of_nil ht).bind fun u _ hu => ?_
      simpa [hu] using yields_pure u found.reverse
  | case5 rest hread notEnd inner notClosed ih =>
      refine (yields_next_of_cons h).bind fun s _ hs => ?_
      have escaped := yields_remnantEscape s
      simp only [hs, hread, notEnd, if_false, Option.map_none, Option.getD_none] at escaped
      simp only [notClosed, if_true, if_false]
      refine escaped.bind fun t _ ht => ?_
      simp only [remnants_eq ((some '\\').toList ++ found)]
      simpa using ih ('\\' :: found) t ht
  | case6 c rest notClosed notEscape inner ih =>
      refine (yields_next_of_cons h).bind fun s _ hs => ?_
      simp only [notClosed, notEscape, if_false, remnants_eq (c :: found)]
      simpa using ih (c :: found) s hs

theorem yields_spoiled (found : Text) (r : Reader) :
    Yields (spoiled found) r ((Url.spoiled found.reverse r.text).content, false)
      (Url.spoiled found.reverse r.text).rest := by
  refine (yields_remnants found r).bind fun s _ hs => ?_
  simpa [Url.spoiled, hs] using
    yields_pure s (found.reverse ++ (Url.readRemnants r.text).1, false)

theorem url_eq (found : Text) :
    url found = (do
      match ← next with
      | none => return (found.reverse, true)
      | some c =>
          if isWhitespace c then endOfUrl c found
          else if c = ')' then return (found.reverse, true)
          else if Url.spoils c then spoiled (c :: found)
          else if c = '\\' then
            match ← escape? with
            | some e => url (e :: found)
            | none => do
                unread (some c)
                spoiled found
          else url (c :: found)) := by
  funext r
  rw [url]
  simp only [Bind.bind, EStateM.bind]
  split
  · next h => simp only [h]
  · next h =>
      simp only [h]
      rfl
  · next c after h =>
      simp only [h]
      split
      · rfl
      · split
        · rfl
        · split
          · rfl
          · split
            · split
              · next he => simp only [EStateM.bind, he]
              · next he => simp only [EStateM.bind, he]
              · next he => simp only [EStateM.bind, he]
            · rfl

theorem yields_endOfUrl_closed (blank : Char) (found : Text) {r : Reader} {after : Text}
    (h : r.text.dropWhile isWhitespace = ')' :: after) :
    Yields (endOfUrl blank found) r (found.reverse, true) after := by
  refine (yields_takeWhile isWhitespace [blank] r).bind fun s _ hs => ?_
  refine (yields_next_of_cons (hs.trans h)).bind fun t _ ht => ?_
  simpa [ht] using yields_pure t (found.reverse, true)

theorem yields_endOfUrl_spoiled (blank : Char) (found : Text) {r : Reader}
    (h : (r.text.dropWhile isWhitespace).head? ≠ some ')') :
    let reading := Url.spoiled (found.reverse ++ blank :: r.text.takeWhile isWhitespace)
      (r.text.dropWhile isWhitespace)
    Yields (endOfUrl blank found) r (reading.content, false) reading.rest := by
  refine (yields_takeWhile isWhitespace [blank] r).bind fun s _ hs => ?_
  rw [← hs] at h ⊢
  refine (yields_next s).bind fun t moves ht => ?_
  simp only [h, if_false]
  refine (yields_unread moves ?_).bind fun u _ hu => ?_
  · rw [ht]
    cases s.text <;> rfl
  rw [← hu]
  have bad := yields_spoiled ((blank :: r.text.takeWhile isWhitespace).reverse ++ found) u
  simpa [Url.spoiled, spoiled] using bad

theorem yields_url (found : Text) (r : Reader) :
    Yields (url found) r (found.reverse ++ (Url.read r.text).content, (Url.read r.text).good)
      (Url.read r.text).rest := by
  generalize h : r.text = text
  rw [url_eq]
  fun_induction Url.read text generalizing r found with
  | case1 =>
      refine (yields_next_of_nil h).bind fun s _ hs => ?_
      simpa [hs] using yields_pure s (found.reverse, true)
  | case2 rest =>
      refine (yields_next_of_cons h).bind fun s _ hs => ?_
      have : isWhitespace ')' = false := by decide
      simpa [this, hs] using yields_pure s (found.reverse, true)
  | case3 c rest notClosed blank after closed =>
      refine (yields_next_of_cons h).bind fun s _ hs => ?_
      simp only [blank, if_true, List.append_nil]
      exact yields_endOfUrl_closed c found (by rw [hs, closed])
  | case4 c rest notClosed blank notEnd =>
      refine (yields_next_of_cons h).bind fun s _ hs => ?_
      simp only [blank, if_true]
      have bad := yields_endOfUrl_spoiled c found (r := s) (by
        intro closed
        rw [hs] at closed
        cases hd : rest.dropWhile isWhitespace with
        | nil => simp [hd] at closed
        | cons d tail =>
            rw [hd, List.head?_cons, Option.some.injEq] at closed
            exact notEnd tail (by rw [hd, closed]))
      rw [hs] at bad
      simpa [Url.spoiled] using bad
  | case5 c rest notClosed notBlank spoils =>
      refine (yields_next_of_cons h).bind fun s _ hs => ?_
      simp only [notBlank, notClosed, spoils, if_true, if_false]
      rw [← hs]
      simpa [Url.spoiled] using yields_spoiled (c :: found) s
  | case6 rest e after hread inner notClosed notBlank clean ih =>
      refine (yields_next_of_cons h).bind fun s _ hs => ?_
      have escaped := yields_escape? s
      simp only [hs, hread, Option.map_some, Option.getD_some] at escaped
      simp only [notBlank, notClosed, clean, if_true, if_false]
      refine escaped.bind fun t _ ht => ?_
      simp only [url_eq (e :: found)]
      simpa using ih (e :: found) t ht
  | case7 rest hread notClosed notBlank clean =>
      refine (yields_next_of_cons h).bind fun s moves hs => ?_
      have escaped := yields_escape? s
      simp only [hs, hread, Option.map_none, Option.getD_none] at escaped
      simp only [notBlank, notClosed, clean, if_true, if_false]
      refine escaped.bind fun t more ht => ?_
      refine (yields_unread (moves.trans more) (by simp [h, ht])).bind fun u _ hu => ?_
      rw [h] at hu
      rw [← hu]
      simpa [Url.spoiled] using yields_spoiled found u
  | case8 c rest notClosed notBlank clean notEscape inner ih =>
      refine (yields_next_of_cons h).bind fun s _ hs => ?_
      simp only [notBlank, notClosed, clean, notEscape, if_false, url_eq (c :: found)]
      simpa using ih (c :: found) s hs

end CssSyntax.Reader
