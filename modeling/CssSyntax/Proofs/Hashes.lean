import CssSyntax.Proofs.Identifiers
import CssSyntax.Proofs.Places
import CssSyntax.Proofs.Relexing

/-!
Hashes that could be identifiers. What the flag of a hash says is said of its name alone: read on
its own, the name is one identifier.
-/

namespace CssSyntax

open Text

namespace Lexeme

/-- Only where an identifier starts, one is read. -/
theorem startsIdentifier_of_ident {text : Text} (ident : (read text).lexeme.kind = .ident) :
    (Lookahead.ofText text).startsIdentifier := by
  have other {kinds : List Kind} {kind : Kind} (same : kind = .ident) (mem : kind ∈ kinds)
      (apart : .ident ∉ kinds) : False := apart (same ▸ mem)
  have reading := reading_read text
  generalize read text = scanned at ident reading
  cases reading with
  | identLike _ _ _ identifier => exact identifier
  | string => exact (other ident (kind_readString ..) (by decide)).elim
  | symbol symbol => exact (other ident (kind_of_symbol symbol) (by decide)).elim
  | numeric => exact (other ident (kind_readNumeric ..) (by decide)).elim
  | _ => cases ident

/-- A name that starts an identifier is one as a whole. -/
theorem read_of_whole_name {name value : Text} (whole : Name.read name = (value, []))
    (identifier : (Lookahead.ofText name).startsIdentifier) :
    read name = { lexeme := { kind := .ident, value := value }, rest := [] } := by
  have notMark : ¬cdcMark.isPrefixOf name := by
    intro mark
    obtain ⟨behind, rfl⟩ := List.isPrefixOf_iff_prefix.mp mark
    have stops : Name.read (cdcMark ++ behind) = (['-', '-'], '>' :: behind) := by
      simp only [cdcMark, List.cons_append, List.nil_append]
      rw [Name.read_of_name (by decide), Name.read_of_name (by decide),
        Name.read_of_not_continuesName (by simp [Name.continuesName_cons_iff]; decide)]
    rw [stops] at whole
    cases whole
  rw [read_of_startsIdentifier identifier notMark, readIdentLike_ident (by simp [whole]), whole]

/-- A name alone is read as one identifier exactly if it starts one. -/
theorem startsIdentifier_iff_tokenize {name value : Text} (normal : name.IsNormal)
    (whole : Name.read name = (value, [])) :
    (Lookahead.ofText name).startsIdentifier ↔
      ∃ ident, tokenize name = [ident, endToken (.after .start name)] ∧
        ident.kind = .ident ∧ ident.value = value := by
  rw [tokenize, Units.normalize_ofText normal]
  constructor
  · intro identifier
    have hread := read_of_whole_name whole identifier
    have nonempty : name ≠ [] := by
      rintro rfl
      cases identifier
    rw [tokensFrom_of_whole nonempty (by rw [hread]), hread]
    exact ⟨_, rfl, rfl, rfl⟩
  · rintro ⟨ident, tokens, kind, -⟩
    obtain ⟨behind, first⟩ := tokensFrom_eq_cons .start name
    rw [first] at tokens
    obtain ⟨rfl, -⟩ := List.cons.inj tokens
    exact startsIdentifier_of_ident kind

/-- A hash is a number sign and a name, which is one name on its own as well. -/
theorem exists_name_of_hash {text : Text} (hash : (read text).lexeme.kind = .hash) :
    ∃ name, text = '#' :: name ++ (read text).rest ∧
      Name.read name = ((read text).lexeme.value, []) ∧
      (read text).lexeme.isIdLike = (Lookahead.ofText name).startsIdentifier := by
  have other {kinds : List Kind} {kind : Kind} (same : kind = .hash) (mem : kind ∈ kinds)
      (apart : .hash ∉ kinds) : False := apart (same ▸ mem)
  have reading := reading_read text
  generalize read text = scanned at hash reading ⊢
  cases reading with
  | @hash rest name =>
      obtain ⟨front, split, hfront⟩ := Name.local_read rest
      have alone := hfront [] (near_nil _) trivial
      refine ⟨front, congrArg ('#' :: ·) split, by rwa [List.append_nil] at alone, ?_⟩
      have same : (Lookahead.ofText (front ++ [])).startsIdentifier =
          (Lookahead.ofText (front ++ (Name.read rest).2)).startsIdentifier :=
        Name.startsIdentifier_eq (near_nil _) (by rw [← split]) (by rw [alone])
      rw [List.append_nil, ← split] at same
      exact same.symm
  | string => exact (other hash (kind_readString ..) (by decide)).elim
  | symbol symbol => exact (other hash (kind_of_symbol symbol) (by decide)).elim
  | numeric => exact (other hash (kind_readNumeric ..) (by decide)).elim
  | identLike => exact (other hash (kind_readIdentLike _) (by decide)).elim
  | _ => cases hash

end Lexeme

namespace TokenStream

/-- A hash is flagged exactly if its name, read on its own, is one identifier with the value of the
hash. -/
theorem isIdLike_iff_tokenize {source : Source} {reporter : Reporter} {count : Nat} {token : Token}
    (given : ((ofSource source reporter).call count).result = .ok token)
    (hash : token.kind = .hash) :
    ∃ name, token.representation = '#' :: name ∧
      (token.isIdLike ↔ ∃ ident, tokenize name = [ident, endToken (.after .start name)] ∧
        ident.kind = .ident ∧ ident.value = token.value) := by
  have normal := isNormal_representation given
  rw [token_of_next given] at hash normal ⊢
  obtain ⟨name, split, whole, flag⟩ := Lexeme.exists_name_of_hash hash
  rw [Scanned.representation_of_split split] at normal ⊢
  have alone := Lexeme.startsIdentifier_iff_tokenize (List.forall_mem_cons.mp normal).2 whole
  rw [← flag] at alone
  exact ⟨name, rfl, alone⟩

/-- Behind a failure, the name of `#-\31` is one identifier, since the digit is escaped. -/
theorem isIdLike_iff_tokenize_escaped :
    let source : Source :=
      .failure ⟨"interrupted"⟩ :: Source.ofText ['#', '-', '\\', '3', '1']
    let token : Token := ⟨⟨.hash, ['-', '1'], none, true⟩, ['#', '-', '\\', '3', '1'], .start⟩
    ((ofSource source .discarding).call 1).result = .ok token ∧
      ∃ ident, tokenize ['-', '\\', '3', '1'] =
          [ident, endToken (.after .start ['-', '\\', '3', '1'])] ∧
        ident.kind = .ident ∧ ident.value = ['-', '1'] := by
  intro source token
  have given : ((ofSource source .discarding).call 1).result = .ok token := by decide +kernel
  obtain ⟨name, split, flag⟩ := isIdLike_iff_tokenize given rfl
  obtain ⟨-, rfl⟩ := List.cons.inj split
  exact ⟨given, flag.mp rfl⟩

end TokenStream

end CssSyntax
