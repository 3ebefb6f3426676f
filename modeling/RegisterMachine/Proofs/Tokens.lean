/-
  Tokens and the lines that they stand in.

  * `IsGap gap`: characters that separate tokens.  `SpellsToken word`: characters
    that may be a token, since none of them does that or starts a comment;
  * `tokens_gap`, `tokens_word`: separators before code change nothing, and a word
    before one, before a comment or at the end is a token of its own;
  * `tokens_intercalate`: tokens with separators between them are read back;
  * `spellsToken_of_mem_tokens`: what a line is read as are such tokens, and
    `mem_of_mem_tokens`: they have no other characters than the line.
-/
import Mathlib.Tactic
import RegisterMachine.Proofs.Names
import RegisterMachine.Proofs.Numerals
import RegisterMachine.Line

namespace RegisterMachine

/-- Nothing but separators. -/
def IsGap (gap : List Char) : Prop :=
  ∀ c ∈ gap, isSeparator c = true

instance (gap : List Char) : Decidable (IsGap gap) :=
  decidable_of_iff (gap.all isSeparator = true) List.all_eq_true

/-- The characters of a token: at least one, and none that separates tokens or
    starts a comment. -/
structure SpellsToken (word : List Char) : Prop where
  ne_nil : word ≠ []
  not_mem : ∀ c ∈ [' ', '\t', ',', '\r', '#'], c ∉ word

namespace SpellsToken

variable {word : List Char} (h : SpellsToken word)
include h

theorem not_isSeparator {c : Char} (hc : c ∈ word) : isSeparator c = false := by
  rw [Bool.eq_false_iff]
  intro hs
  simp only [isSeparator, Bool.or_eq_true, beq_iff_eq, or_assoc] at hs
  refine h.not_mem c ?_ hc
  rcases hs with rfl | rfl | rfl | rfl <;> decide

theorem not_hash : '#' ∉ word :=
  h.not_mem '#' (by decide)

end SpellsToken

theorem spellsToken_of_forall {word : List Char} (hne : word ≠ [])
    (h : ∀ c ∈ word, isSeparator c = false ∧ c ≠ '#') : SpellsToken word where
  ne_nil := hne
  not_mem c hc hm := by
    obtain ⟨hs, hhash⟩ := h c hm
    fin_cases hc <;> simp [isSeparator] at hs hhash

namespace Line

/-! ## Cutting a line -/

theorem code_append {word : List Char} (h : '#' ∉ word) (rest : List Char) :
    code (word ++ rest) = word ++ code rest :=
  List.takeWhile_append_of_pos fun _ hc => bne_iff_ne.2 fun he => h (he ▸ hc)

theorem code_eq_self {word : List Char} (h : '#' ∉ word) : code word = word := by
  have := code_append h []
  rwa [List.append_nil, show code [] = [] from rfl, List.append_nil] at this

theorem code_separator {c : Char} (hs : isSeparator c = true) (rest : List Char) :
    code (c :: rest) = c :: code rest := by
  have hc : '#' ∉ [c] := by
    rw [List.mem_singleton]
    rintro rfl
    cases hs
  exact code_append hc rest

/-! ## Tokens -/

/-- A separator before a line adds no token. -/
theorem tokens_separator {c : Char} (hs : isSeparator c = true) (rest : List Char) :
    tokens (c :: rest) = tokens rest := by
  rw [tokens, code_separator hs, List.splitOnP_cons_eq_if_modifyHead, if_pos hs]
  rfl

/-- What stands before a separator is a token. -/
theorem tokens_token {word : List Char} (h : SpellsToken word) {c : Char}
    (hs : isSeparator c = true) (rest : List Char) :
    tokens (word ++ c :: rest) = String.ofList word :: tokens rest := by
  rw [tokens, code_append h.not_hash, code_separator hs,
    List.splitOnP_append_cons_of_forall_mem (fun _ => h.not_isSeparator) _ hs]
  simp [tokens, h.ne_nil]

theorem tokens_eq_singleton {word : List Char} (h : SpellsToken word) :
    tokens word = [String.ofList word] := by
  rw [tokens, code_eq_self h.not_hash, List.splitOnP_eq_singleton fun _ => h.not_isSeparator]
  simp [h.ne_nil]

/-- Separators before a line add no token. -/
theorem tokens_gap {gap : List Char} (hg : IsGap gap) (rest : List Char) :
    tokens (gap ++ rest) = tokens rest := by
  induction gap with
  | nil => rfl
  | cons c gap ih =>
    obtain ⟨hc, hgap⟩ := List.forall_mem_cons.1 hg
    rw [List.cons_append, tokens_separator hc, ih hgap]

/-- A word is a token where the line ends after it, and before a separator or a
    comment. -/
theorem tokens_word {word rest : List Char} (h : SpellsToken word)
    (hr : ∀ c ∈ rest.head?, isSeparator c = true ∨ c = '#') :
    tokens (word ++ rest) = String.ofList word :: tokens rest := by
  cases rest with
  | nil =>
    rw [List.append_nil, tokens_eq_singleton h]
    rfl
  | cons c rest =>
    rcases hr c rfl with hs | rfl
    · rw [tokens_token h hs, tokens_separator hs]
    · have hcode : code (word ++ '#' :: rest) = code word := by
        rw [code_append h.not_hash, code_eq_self h.not_hash]
        exact List.append_nil word
      rw [tokens, hcode, ← tokens, tokens_eq_singleton h]
      rfl

/-- Tokens with separators between them are read back. -/
theorem tokens_intercalate {gap : List Char} (hne : gap ≠ []) (hg : IsGap gap)
    {words : List (List Char)} (h : ∀ word ∈ words, SpellsToken word) :
    tokens (gap.intercalate words) = words.map String.ofList := by
  induction words with
  | nil => rfl
  | cons word words ih =>
    obtain ⟨hword, hwords⟩ := List.forall_mem_cons.1 h
    cases words with
    | nil => simpa using tokens_eq_singleton hword
    | cons next words =>
      obtain ⟨c, gap, rfl⟩ := List.exists_cons_of_ne_nil hne
      have hc : isSeparator c = true := hg c List.mem_cons_self
      rw [List.intercalate_cons_cons, List.append_assoc, tokens_word hword fun _ hd => ?_,
        tokens_gap hg, ih hwords]
      · rfl
      · cases hd
        exact Or.inl hc

/-- A piece between separators has no separator, and only characters of the
    whole. -/
theorem forall_mem_splitOnP {p : Char → Bool} {text piece : List Char}
    (h : piece ∈ text.splitOnP p) : ∀ c ∈ piece, c ∈ text ∧ p c = false := by
  induction text generalizing piece with
  | nil =>
    rw [List.splitOnP_nil, List.mem_singleton] at h
    simp [h]
  | cons first text ih =>
    obtain ⟨head, pieces, hs⟩ := List.exists_cons_of_ne_nil (List.splitOnP_ne_nil p text)
    have htext : ∀ piece ∈ head :: pieces, ∀ c ∈ piece, c ∈ first :: text ∧ p c = false := by
      intro piece hp c hc
      obtain ⟨hm, hpc⟩ := ih (hs ▸ hp) c hc
      exact ⟨List.mem_cons_of_mem first hm, hpc⟩
    rw [List.splitOnP_cons_eq_if_modifyHead, hs, List.modifyHead_cons] at h
    split_ifs at h with hf
    · rcases List.mem_cons.1 h with rfl | h
      · simp
      · exact htext piece h
    · rcases List.mem_cons.1 h with rfl | h
      · simp only [List.forall_mem_cons]
        exact ⟨⟨List.mem_cons_self, by simpa using hf⟩, htext head List.mem_cons_self⟩
      · exact htext piece (List.mem_cons_of_mem head h)

theorem exists_piece {line : List Char} {token : String} (h : token ∈ tokens line) :
    token.toList ∈ (code line).splitOnP isSeparator ∧ token.toList ≠ [] := by
  obtain ⟨piece, hp, rfl⟩ := List.mem_map.1 h
  simpa using List.mem_filter.1 hp

theorem mem_of_mem_tokens {line : List Char} {token : String} (h : token ∈ tokens line) {c : Char}
    (hc : c ∈ token.toList) : c ∈ line :=
  (List.takeWhile_sublist _).subset (forall_mem_splitOnP (exists_piece h).1 c hc).1

/-- **What a line is read as are tokens.** -/
theorem spellsToken_of_mem_tokens {line : List Char} {token : String} (h : token ∈ tokens line) :
    SpellsToken token.toList := by
  obtain ⟨hp, hne⟩ := exists_piece h
  refine spellsToken_of_forall hne fun c hc => ?_
  obtain ⟨hcode, hs⟩ := forall_mem_splitOnP hp c hc
  have hhash : (c != '#') = true := List.all_eq_true.1 List.all_takeWhile c hcode
  exact ⟨hs, bne_iff_ne.1 hhash⟩

end Line

/-! ## What is a token -/

/-- An identifier has no character that none may have. -/
theorem Identifier.not_mem {name : String} (h : Identifier name) {c : Char}
    (hc : isIdentifierRest c = false) : c ∉ name.toList := by
  intro hm
  obtain ⟨first, rest, hn, hf, hr⟩ := h
  rw [hn, List.mem_cons] at hm
  have hi : IdentifierRest c := by
    rcases hm with rfl | hm
    · exact Or.inl hf
    · exact hr c hm
  rw [isIdentifierRest_iff.2 hi] at hc
  cases hc

theorem Identifier.ne_nil {name : String} (h : Identifier name) : name.toList ≠ [] := by
  obtain ⟨first, rest, hn, -⟩ := h
  simp [hn]

theorem Identifier.spellsToken {name : String} (h : Identifier name) : SpellsToken name.toList where
  ne_nil := h.ne_nil
  not_mem c hc := h.not_mem (by fin_cases hc <;> rfl)

theorem spellsToken_decimal (v : Int) : SpellsToken (Text.decimal v).toList where
  ne_nil := toList_decimal_ne_nil v
  not_mem c hc := not_mem_decimal (by fin_cases hc <;> rfl) (by rintro rfl; simp at hc) v

end RegisterMachine
