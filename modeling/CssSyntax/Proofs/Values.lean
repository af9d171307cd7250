import CssSyntax.Proofs.Locality
import CssSyntax.Proofs.NormalForm

/-!
What the values of tokens are like: where a text has no NUL, no value has one, names are not empty,
and a comment does not hold its own closing mark.
-/

namespace CssSyntax

open CodePoint

theorem Escape.nul_notMem_read {text rest : Text} {e : Char} (h : '\x00' ∉ text)
    (hread : read text = some (e, rest)) : e ≠ '\x00' ∧ '\x00' ∉ rest := by
  obtain ⟨front, split, _⟩ := local_read hread
  refine ⟨?_, fun mem => h (by rw [split]; simp [mem])⟩
  cases text with
  | nil => cases hread
  | cons c tail =>
      simp only [read] at hread
      split at hread
      · cases hread
      · split at hread
        · cases hread
          exact ofNumber_ne_nul _
        · cases hread
          simp only [List.mem_cons, not_or] at h
          exact Ne.symm h.1

theorem Name.nul_notMem_read {text : Text} (h : '\x00' ∉ text) : '\x00' ∉ (read text).1 := by
  fun_induction read text with
  | case1 => exact List.not_mem_nil
  | case2 c rest name inner ih =>
      simp only [List.mem_cons, not_or] at h ⊢
      exact ⟨h.1, ih h.2⟩
  | case3 rest e after hread inner notName ih =>
      simp only [List.mem_cons, not_or] at h ⊢
      obtain ⟨notNul, behind⟩ := Escape.nul_notMem_read h.2 hread
      exact ⟨Ne.symm notNul, ih behind⟩
  | case4 => exact List.not_mem_nil
  | case5 => exact List.not_mem_nil

theorem Name.nul_notMem_rest {text : Text} (h : '\x00' ∉ text) : '\x00' ∉ (read text).2 := by
  obtain ⟨front, split, -⟩ := local_read text
  intro nul
  apply h
  rw [split]
  exact List.mem_append_right front nul

theorem Name.read_ne_nil {text : Text} (h : (Lookahead.ofText text).continuesName) :
    (read text).1 ≠ [] := by
  cases text with
  | nil => simp [Lookahead.continuesName, Lookahead.ofText, startsEscape] at h
  | cons c rest =>
      rcases (continuesName_cons_iff c rest).mp h with name | ⟨rfl, escape⟩
      · simp [read_of_name name]
      · obtain ⟨found, hfound⟩ := Option.isSome_iff_exists.mp escape
        simp [read_of_escape hfound]

theorem Quoted.nul_notMem_read (quote : Char) {text : Text} (h : '\x00' ∉ text) :
    '\x00' ∉ (read quote text).content := by
  fun_induction read quote text with
  | case1 => exact List.not_mem_nil
  | case2 => exact List.not_mem_nil
  | case3 => exact List.not_mem_nil
  | case4 rest e after hread inner notQuote notFeed ih =>
      simp only [List.mem_cons, not_or] at h ⊢
      obtain ⟨notNul, behind⟩ := Escape.nul_notMem_read h.2 hread
      exact ⟨Ne.symm notNul, ih behind⟩
  | case5 rest hread notQuote notFeed ih =>
      simp only [List.mem_cons, not_or] at h
      exact ih (mt List.mem_of_mem_drop h.2)
  | case6 c rest notQuote notFeed notEscape inner ih =>
      simp only [List.mem_cons, not_or] at h ⊢
      exact ⟨h.1, ih h.2⟩

namespace Url

theorem nul_notMem_readRemnants {text : Text} (h : '\x00' ∉ text) :
    '\x00' ∉ (readRemnants text).1 := by
  fun_induction readRemnants text with
  | case1 => exact List.not_mem_nil
  | case2 => exact List.not_mem_nil
  | case3 rest e after hread inner notClosed ih =>
      simp only [List.mem_cons, not_or] at h ⊢
      obtain ⟨notNul, behind⟩ := Escape.nul_notMem_read h.2 hread
      exact ⟨Ne.symm notNul, ih behind⟩
  | case4 => exact List.not_mem_nil
  | case5 rest hread more notClosed inner ih =>
      simp only [List.mem_cons, not_or] at h ⊢
      exact ⟨h.1, ih h.2⟩
  | case6 c rest notClosed notEscape inner ih =>
      simp only [List.mem_cons, not_or] at h ⊢
      exact ⟨h.1, ih h.2⟩

theorem nul_notMem_spoiled {content text : Text} (h : '\x00' ∉ content ++ text) :
    '\x00' ∉ (spoiled content text).content := by
  simp only [List.mem_append, not_or, spoiled] at h ⊢
  exact ⟨h.1, nul_notMem_readRemnants h.2⟩

theorem nul_notMem_read {text : Text} (h : '\x00' ∉ text) : '\x00' ∉ (read text).content := by
  fun_induction read text with
  | case1 => exact List.not_mem_nil
  | case2 => exact List.not_mem_nil
  | case3 => exact List.not_mem_nil
  | case4 c rest notClosed blank more =>
      apply nul_notMem_spoiled
      rwa [List.cons_append, List.takeWhile_append_dropWhile]
  | case5 c rest notClosed notBlank spoils => exact nul_notMem_spoiled h
  | case6 rest e after hread inner notClosed notBlank clean ih =>
      simp only [List.mem_cons, not_or] at h ⊢
      obtain ⟨notNul, behind⟩ := Escape.nul_notMem_read h.2 hread
      exact ⟨Ne.symm notNul, ih behind⟩
  | case7 rest hread notClosed notBlank clean => exact nul_notMem_spoiled h
  | case8 c rest notClosed notBlank clean notEscape inner ih =>
      simp only [List.mem_cons, not_or] at h ⊢
      exact ⟨h.1, ih h.2⟩

/-- Blanks in front of a url make no difference. -/
theorem nul_notMem_read_dropWhile {text : Text} (h : '\x00' ∉ text) :
    '\x00' ∉ (read (text.dropWhile isWhitespace)).content := by
  apply nul_notMem_read
  intro nul
  exact h ((List.dropWhile_sublist isWhitespace).mem nul)

end Url

namespace Comment

theorem head?_content (text : Text) :
    ∀ c ∈ (read text).content.head?, c ∈ text.head? := by
  fun_cases read text with
  | case1 => simp
  | case2 rest => simp
  | case3 c rest notEnd inner => simp

theorem mem_content (text : Text) : ∀ c ∈ (read text).content, c ∈ text := by
  fun_induction read text with
  | case1 => simp
  | case2 rest => simp
  | case3 c rest notEnd inner ih =>
      intro d hd
      rcases List.mem_cons.mp hd with rfl | hd
      · exact List.mem_cons_self
      · exact List.mem_cons_of_mem _ (ih d hd)

/-- A comment does not hold its closing mark. -/
theorem closing_notIn_content (text : Text) : ¬['*', '/'] <:+: (read text).content := by
  fun_induction read text with
  | case1 => simp
  | case2 rest => simp
  | case3 c rest notEnd inner ih =>
      intro closing
      rcases List.infix_cons_iff.mp closing with front | behind
      · obtain ⟨rfl, slash⟩ := List.cons_prefix_cons.mp front
        obtain ⟨after, hafter⟩ := slash
        have first : inner.content.head? = some '/' := by rw [← hafter]; rfl
        obtain ⟨after, hrest⟩ := List.head?_eq_some_iff.mp (head?_content rest '/' first)
        exact notEnd after rfl hrest
      · exact ih behind

/-- A comment is read back up to its closing mark, whatever stands behind it. -/
theorem read_append {content : Text} (inside : ¬['*', '/'] <:+: content) (rest : Text) :
    read (content ++ '*' :: '/' :: rest) = ⟨content, true, rest⟩ := by
  induction content with
  | nil => rfl
  | cons c content ih =>
      have inner : ¬['*', '/'] <:+: content := fun h => inside (List.infix_cons h)
      rw [List.cons_append, read_cons, ih inner]
      rintro ⟨rfl, slash⟩
      cases content with
      | nil => simp at slash
      | cons d content =>
          cases slash
          exact inside ⟨[], content, rfl⟩

end Comment

end CssSyntax
