import CssSyntax.Proofs.Streams

/-!
The tokens of a source that does not fail cover its text: put together, their representations are
the text, and only the end of the input has none.
-/

namespace CssSyntax

/-- Tokens one behind another from a place on, each with some text, and the end token behind
them. -/
inductive Covers : Position → Text → List Token → Prop where
  | endOfInput (start : Position) : Covers start [] [endToken start]
  | token {start : Position} {token : Token} {rest : Text} {tokens : List Token} :
      token.start = start → token.kind ≠ .endOfInput → token.representation ≠ [] →
      Covers (start.after token.representation) rest tokens →
      Covers start (token.representation ++ rest) (token :: tokens)

theorem covers_tokensFrom (start : Position) (text : Text) :
    Covers start text ((tokensFrom start text).map Prod.fst) := by
  induction start, text using tokensFrom_induction with
  | endOfInput start =>
      rw [tokensFrom_nil]
      exact .endOfInput start
  | token start text nonempty ih =>
      have split := Scanned.representation_append text start
      have taken := Scanned.representation_ne_nil nonempty start
      have covers := Covers.token rfl (Lexeme.kind_read_ne_endOfInput nonempty) taken ih
      rw [split] at covers
      rw [tokensFrom_of_ne_nil nonempty, List.map_cons]
      exact covers

namespace Covers

theorem flatMap_representation {start : Position} {text : Text} {tokens : List Token}
    (h : Covers start text tokens) : tokens.flatMap Token.representation = text := by
  induction h with
  | endOfInput start => rfl
  | token _ _ _ _ ih => rw [List.flatMap_cons, ih]

/-- The end token comes last, and nowhere else. -/
theorem exists_append_last {start : Position} {text : Text} {tokens : List Token}
    (h : Covers start text tokens) :
    ∃ front last, tokens = front ++ [last] ∧
      (∀ token ∈ front, token.kind ≠ .endOfInput ∧ token.representation ≠ []) ∧
      last.kind = .endOfInput ∧ last.representation = [] := by
  induction h with
  | endOfInput start => exact ⟨[], endToken start, rfl, by simp, rfl, rfl⟩
  | @token _ token _ _ _ kind taken _ ih =>
      obtain ⟨front, last, rfl, inner, ended⟩ := ih
      exact ⟨token :: front, last, rfl, List.forall_mem_cons.mpr ⟨⟨kind, taken⟩, inner⟩, ended⟩

/-- A token starts behind the text of all tokens before it. -/
theorem start_eq {start : Position} {text : Text} {before behind : List Token} {token : Token}
    (h : Covers start text (before ++ token :: behind)) :
    token.start = start.after (before.flatMap Token.representation) := by
  generalize htokens : before ++ token :: behind = tokens at h
  induction h generalizing before with
  | endOfInput start =>
      cases before with
      | nil =>
          obtain ⟨rfl, _⟩ := List.cons.inj htokens
          rfl
      | cons first before => simp at htokens
  | token placed _ _ _ ih =>
      cases before with
      | nil =>
          obtain ⟨rfl, _⟩ := List.cons.inj htokens
          exact placed
      | cons first before =>
          obtain ⟨rfl, rest⟩ := List.cons.inj htokens
          rw [ih rest, List.flatMap_cons, Position.after_append]

end Covers

/-- Reading a source that does not fail, token by token up to the first end token, covers exactly
the text that the normalizer makes of the source, and every token counts the text before it. -/
theorem TokenStream.results_cover_text (units : List UInt32) (reporter : Reporter) :
    ∃ (text : Text) (tokens : List Token) (last : Token),
      (Normalizer.ofSource (units.map .unit)).readToEnd.1 =
        text.map (fun c => .ok (some c)) ++ [.ok none] ∧
      (TokenStream.ofSource (units.map .unit) reporter).results (tokens.length + 1) =
        (tokens ++ [last]).map .ok ∧
      (tokens ++ [last]).flatMap Token.representation = text ∧
      (∀ token ∈ tokens, token.kind ≠ .endOfInput ∧ token.representation ≠ []) ∧
      last.kind = .endOfInput ∧ last.representation = [] ∧
      ∀ before token behind, tokens ++ [last] = before ++ token :: behind →
        token.start.offset = (before.flatMap Token.representation).length := by
  let normalizer := Normalizer.ofSource (units.map .unit)
  let stream := TokenStream.ofSource (units.map .unit) reporter
  have noFailures : stream.reader.input.source.failures = [] := Source.failures_units units
  have covers := covers_tokensFrom .start normalizer.text
  obtain ⟨tokens, last, htokens, inner, ended⟩ := covers.exists_append_last
  have results : stream.results (tokensFrom .start normalizer.text).length =
      (tokensFrom .start normalizer.text).map fun found => .ok found.1 :=
    TokenStream.results_eq_tokensFrom noFailures
  refine ⟨normalizer.text, tokens, last, normalizer.readToEnd_of_no_failures noFailures, ?_, ?_,
    inner, ended.1, ended.2, ?_⟩
  · have count := congrArg List.length htokens
    rw [List.length_map, List.length_append, List.length_singleton] at count
    rw [← htokens, List.map_map, ← count]
    exact results
  · rw [← htokens]
    exact covers.flatMap_representation
  · intro before token behind split
    rw [htokens, split] at covers
    rw [covers.start_eq, Position.offset_after]
    exact Nat.zero_add _

end CssSyntax
