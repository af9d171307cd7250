import CssSyntax.Proofs.Normalizing
import CssSyntax.Reader

/-!
What a scan does to a reader, said of the text in front of the reader. A scan only ever takes code
points and gives them back, so what it leaves is determined by the text it stands before; if the
source fails, it stops with everything before the failure taken. Where the reader stands has no
part in it.
-/

namespace CssSyntax

namespace Reader

variable {α β : Type}

/-- The text in front of a reader, up to the end of the input or the next failure. -/
def text (r : Reader) : Text := r.ahead ++ r.input.text

/-- The same reader at another place. -/
def placed (r : Reader) (p : Position) : Reader := { r with position := p }

/-- Reading without a failure: code points are taken and given back. -/
inductive Moves : Reader → Reader → Prop where
  | refl (r : Reader) : Moves r r
  | take {r s after : Reader} {c : Option Char} :
      Moves r s → next s = .ok c after → Moves r after
  | giveBack {r s after : Reader} {c : Option Char} :
      Moves r s → unread c s = .ok () after → Moves r after

theorem Moves.trans {r s after : Reader} (first : Moves r s) (second : Moves s after) :
    Moves r after := by
  induction second with
  | refl => exact first
  | take _ h ih => exact .take ih h
  | giveBack _ h ih => exact .giveBack ih h

/-- What `next` does, by the text in front of the reader. -/
theorem next_cases (r : Reader) :
    (∃ c after, next r = .ok (some c) after ∧ r.text = c :: after.text ∧
      after.taken = c :: r.taken ∧ after.position = r.position) ∨
    (∃ after, next r = .ok none after ∧ r.text = [] ∧ after.text = [] ∧
      after.taken = r.taken ∧ after.position = r.position) ∨
    (∃ f input, next r = .error (.failure f) { r with input := input } ∧ r.text = [] ∧
      r.ahead = [] ∧ r.input.read = .error f input) := by
  obtain ⟨input, ahead, taken, position⟩ := r
  cases ahead with
  | cons c ahead => exact .inl ⟨c, _, rfl, rfl, rfl, rfl⟩
  | nil =>
      cases hread : input.read with
      | ok c after =>
          cases c with
          | some c =>
              refine .inl ⟨c, ⟨after, [], c :: taken, position⟩, ?_, ?_, rfl, rfl⟩
              · simp only [next, hread]
              · simpa [text] using Normalizer.text_of_ok hread
          | none =>
              obtain ⟨ended, stays⟩ := Normalizer.text_of_end hread
              refine .inr (.inl ⟨⟨after, [], taken, position⟩, ?_, ?_, ?_, rfl, rfl⟩)
              · simp only [next, hread]
              · simpa [text] using ended
              · simpa [text] using stays
      | error f after =>
          refine .inr (.inr ⟨f, after, ?_, ?_, rfl, rfl⟩)
          · simp only [next, hread]
          · simpa [text] using Normalizer.text_of_error hread

theorem unread_eq {r : Reader} {c : Char} {taken : Text} (h : r.taken = c :: taken) :
    unread (some c) r = .ok () { r with ahead := c :: r.ahead, taken := taken } := by
  simp [unread, h]

/-- Only what was taken last can be given back. -/
theorem unread_eq_ok {r after : Reader} {c : Char} {u : Unit}
    (h : unread (some c) r = .ok u after) :
    ∃ taken, r.taken = c :: taken ∧ after = { r with ahead := c :: r.ahead, taken := taken } := by
  cases htaken : r.taken with
  | nil => simp [unread, htaken] at h
  | cons last taken =>
      by_cases same : last = c
      · subst same
        rw [unread_eq htaken] at h
        cases h
        exact ⟨taken, rfl, rfl⟩
      · simp [unread, htaken, same] at h

/-- Moving about neither loses nor adds text, and leaves the start of the token where it is. -/
theorem Moves.keeps {r s : Reader} (h : Moves r s) :
    s.taken.reverse ++ s.text = r.taken.reverse ++ r.text ∧ s.position = r.position := by
  induction h with
  | refl => exact ⟨rfl, rfl⟩
  | @take s after c _ h ih =>
      obtain ⟨d, next, hnext, htext, htaken, hpos⟩ | ⟨next, hnext, htext, hafter, htaken, hpos⟩ |
        ⟨f, input, hnext, _⟩ := next_cases s
      · rw [h] at hnext
        cases hnext
        rw [← ih.1, htext, htaken, hpos, ih.2]
        simp
      · rw [h] at hnext
        cases hnext
        rw [← ih.1, htext, hafter, htaken, hpos, ih.2]
        simp
      · rw [h] at hnext
        cases hnext
  | @giveBack s after c _ h ih =>
      cases c with
      | none =>
          cases h
          exact ih
      | some c =>
          obtain ⟨taken, htaken, rfl⟩ := unread_eq_ok h
          rw [← ih.1, htaken, ← ih.2]
          simp [text]

/-- `next` fails only where the source does, with nothing given back in front of the reader. -/
theorem next_error {r after : Reader} {stop : Stop} (h : next r = .error stop after) :
    ∃ f input, stop = .failure f ∧ after = { r with input := input } ∧ r.text = [] ∧
      r.ahead = [] ∧ r.input.read = .error f input := by
  obtain ⟨c, s, hnext, _⟩ | ⟨s, hnext, _⟩ | ⟨f, input, hnext, rest⟩ := next_cases r
  · rw [hnext] at h
    cases h
  · rw [hnext] at h
    cases h
  · rw [hnext] at h
    cases h
    exact ⟨f, input, rfl, rfl, rest⟩

theorem unread_input {r after : Reader} {c : Option Char} (h : unread c r = .ok () after) :
    after.input = r.input := by
  cases c with
  | none =>
      cases h
      rfl
  | some c =>
      obtain ⟨taken, -, rfl⟩ := unread_eq_ok h
      rfl

/-- Moving about leaves the failures of the source where they are. -/
theorem Moves.failures {r s : Reader} (h : Moves r s) :
    s.input.source.failures = r.input.source.failures := by
  induction h with
  | refl => rfl
  | @take s after c _ h ih =>
      rw [← ih]
      simp only [next] at h
      split at h
      · cases h
        rfl
      · split at h
        · next hread =>
            cases h
            exact Normalizer.failures_of_ok hread
        · next hread =>
            cases h
            exact Normalizer.failures_of_ok hread
        · cases h
  | @giveBack s after c _ h ih => rw [unread_input h, ih]

/-- The outcome of a scan with the reader it leaves put at another place. -/
def placeAfter (p : Position) : EStateM.Result Stop Reader α → EStateM.Result Stop Reader α
  | .ok a after => .ok a (after.placed p)
  | .error stop after => .error stop (after.placed p)

/-- A scan gives `a` and leaves `rest` in front of the reader, or a failure stops it. Where the
reader stands makes no difference to it. -/
structure Yields (scan : Scan α) (r : Reader) (a : α) (rest : Text) : Prop where
  outcome :
    match scan r with
    | .ok b after => b = a ∧ after.text = rest ∧ Moves r after
    | .error stop after => ∃ last, Moves r last ∧ next last = .error stop after
  anywhere : ∀ p : Position, scan (r.placed p) = placeAfter p (scan r)

/-- Over a source that does not fail, a scan gives its result. -/
theorem Yields.ok {scan : Scan α} {r : Reader} {a : α} {rest : Text} (h : Yields scan r a rest)
    (noFailures : r.input.source.failures = []) :
    ∃ after, scan r = .ok a after ∧ after.text = rest ∧ Moves r after := by
  have outcome := h.outcome
  cases hscan : scan r with
  | ok b after =>
      rw [hscan] at outcome
      obtain ⟨rfl, htext, moves⟩ := outcome
      exact ⟨after, rfl, htext, moves⟩
  | error stop after =>
      rw [hscan] at outcome
      obtain ⟨last, moves, hnext⟩ := outcome
      obtain ⟨f, input, _, _, _, _, hread⟩ := next_error hnext
      have := Normalizer.failures_of_error hread
      rw [moves.failures, noFailures] at this
      cases this

theorem yields_pure (r : Reader) (a : α) : Yields (pure a) r a r.text :=
  ⟨⟨rfl, rfl, .refl r⟩, fun _ => rfl⟩

theorem yields_pure_of_text {r : Reader} {rest : Text} (h : r.text = rest) (a : α) :
    Yields (pure a) r a rest := by
  rw [← h]
  exact yields_pure r a

/-- One scan after another. The second one is only run where the first one leaves the reader. -/
theorem Yields.bind {scan : Scan α} {rest : α → Scan β} {r : Reader} {a : α} {b : β}
    {middle after : Text} (first : Yields scan r a middle)
    (second : ∀ s, Moves r s → s.text = middle → Yields (rest a) s b after) :
    Yields (scan >>= rest) r b after := by
  obtain ⟨outcome, anywhere⟩ := first
  cases hscan : scan r with
  | error stop failed =>
      simp only [hscan] at outcome anywhere
      refine ⟨?_, fun p => ?_⟩
      · simpa only [Bind.bind, EStateM.bind, hscan] using outcome
      · simp only [Bind.bind, EStateM.bind, hscan, anywhere p, placeAfter]
  | ok a' s =>
      simp only [hscan] at outcome anywhere
      obtain ⟨rfl, htext, hmoves⟩ := outcome
      obtain ⟨outcome', anywhere'⟩ := second s hmoves htext
      refine ⟨?_, fun p => ?_⟩
      · simp only [Bind.bind, EStateM.bind, hscan]
        cases hrest : rest a' s with
        | ok b' last =>
            simp only [hrest] at outcome' ⊢
            exact ⟨outcome'.1, outcome'.2.1, hmoves.trans outcome'.2.2⟩
        | error stop failed =>
            simp only [hrest] at outcome' ⊢
            obtain ⟨last, hlast, hnext⟩ := outcome'
            exact ⟨last, hmoves.trans hlast, hnext⟩
      · simp only [Bind.bind, EStateM.bind, hscan, anywhere p, placeAfter]
        exact anywhere' p

theorem yields_next (r : Reader) : Yields next r r.text.head? r.text.tail := by
  have anywhere (p : Position) : next (r.placed p) = placeAfter p (next r) := by
    obtain ⟨input, ahead, taken, position⟩ := r
    cases ahead with
    | cons c ahead => rfl
    | nil =>
        simp only [next, placed]
        cases input.read with
        | error f after => rfl
        | ok c after => cases c <;> rfl
  refine ⟨?_, anywhere⟩
  obtain ⟨c, after, hnext, htext, _⟩ | ⟨after, hnext, htext, hafter, _⟩ |
    ⟨f, input, hnext, _⟩ := next_cases r
  · rw [hnext, htext]
    exact ⟨rfl, rfl, .take (.refl r) hnext⟩
  · rw [hnext, htext]
    exact ⟨rfl, hafter, .take (.refl r) hnext⟩
  · rw [hnext]
    exact ⟨r, .refl r, hnext⟩

theorem yields_next_of_nil {r : Reader} (h : r.text = []) : Yields next r none [] := by
  simpa [h] using yields_next r

theorem yields_next_of_cons {r : Reader} {c : Char} {rest : Text} (h : r.text = c :: rest) :
    Yields next r (some c) rest := by
  simpa [h] using yields_next r

/-- Between two readers that differ by a run of text, the one further on has taken that run. -/
theorem taken_eq {r s : Reader} {run : Text}
    (keeps : s.taken.reverse ++ s.text = r.taken.reverse ++ r.text)
    (h : r.text = run ++ s.text) : s.taken = run.reverse ++ r.taken := by
  rw [h, ← List.append_assoc] at keeps
  have := List.append_cancel_right keeps
  rw [← List.reverse_inj, this]
  simp

/-- A scan that leaves the text as it was has nothing taken in the end. -/
theorem Yields.keeps_taken {scan : Scan α} {r after : Reader} {a b : α}
    (h : Yields scan r a r.text) (hscan : scan r = .ok b after) : after.taken = r.taken := by
  have outcome := h.outcome
  rw [hscan] at outcome
  obtain ⟨-, htext, moves⟩ := outcome
  exact @taken_eq r after [] moves.keeps.1 htext.symm

theorem yields_unread_last {r : Reader} {c : Char} {taken : Text} (h : r.taken = c :: taken) :
    Yields (unread (some c)) r () (c :: r.text) := by
  refine ⟨?_, fun p => ?_⟩
  · rw [unread_eq h]
    exact ⟨rfl, rfl, .giveBack (.refl r) (unread_eq h)⟩
  · rw [unread_eq h, unread_eq (r := r.placed p) h]
    rfl

/-- Giving back what was taken first since the reader stood at `r`. -/
theorem yields_unread {r s : Reader} {c : Option Char} (moves : Moves r s)
    (h : r.text = c.toList ++ s.text) : Yields (unread c) s () r.text := by
  rw [h]
  cases c with
  | none => exact yields_pure s ()
  | some c => exact yields_unread_last (taken_eq moves.keeps.1 h)

theorem yields_peek (r : Reader) : Yields peek r r.text.head? r.text := by
  refine (yields_next r).bind fun s moves htext => ?_
  refine (yields_unread moves ?_).bind fun t _ htext => ?_
  · rw [htext]
    cases r.text <;> rfl
  · rw [← htext]
    exact yields_pure t _

theorem yields_peek3 (r : Reader) : Yields peek3 r (.ofText r.text) r.text := by
  refine (yields_next r).bind fun s rs hs => ?_
  refine (yields_next s).bind fun t st ht => ?_
  refine (yields_next t).bind fun u tu hu => ?_
  refine (yields_unread tu ?_).bind fun v uv hv => ?_
  · rw [hu]
    cases t.text <;> rfl
  refine (yields_unread (st.trans (tu.trans uv)) ?_).bind fun w vw hw => ?_
  · rw [hv, ht]
    cases s.text <;> rfl
  refine (yields_unread (rs.trans (st.trans (tu.trans (uv.trans vw)))) ?_).bind fun x _ hx => ?_
  · rw [hw, hs]
    cases r.text <;> rfl
  have ahead : Lookahead.ofText r.text = ⟨r.text.head?, s.text.head?, t.text.head?⟩ := by
    simp [hs, ht, Lookahead.ofText, List.head?_eq_getElem?]
  rw [ahead, ← hx]
  exact yields_pure x _

end Reader

end CssSyntax
