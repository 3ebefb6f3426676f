/-
  Lines that are read as given tokens.

  How much separates two tokens, and with which separators, plays no part in how a
  line is read, and nor does its comment.

  * `Line.Layout`: words with gaps before, between and after them, of which only the
    outer ones may be empty;
  * `Layout.tokens_text`: a line that is laid out so is read as the words, whatever
    the comment after it.  `Layout.exists_text_eq`: every text can be laid out;
  * `tokens_iff_layout`: so the tokens of a line are the words of its code, and
    `tokens_join`: one blank between them is enough.
-/
import RegisterMachine.Proofs.Tokens

namespace RegisterMachine

/-- At least one character, and no separator. -/
structure IsWord (word : List Char) : Prop where
  ne_nil : word ≠ []
  not_isSeparator : ∀ c ∈ word, isSeparator c = false

/-- Nothing, or a text that a `#` begins. -/
def IsComment (text : List Char) : Prop :=
  ∀ c ∈ text.head?, c = '#'

instance (word : List Char) : Decidable (IsWord word) :=
  decidable_of_iff (word ≠ [] ∧ word.all (!isSeparator ·) = true)
    ⟨fun h => ⟨h.1, by simpa using h.2⟩, fun h => ⟨h.ne_nil, by simpa using h.not_isSeparator⟩⟩

instance (text : List Char) : Decidable (IsComment text) :=
  decidable_of_iff (text.head?.all (· == '#') = true) (by cases text <;> simp [IsComment])

theorem IsWord.spellsToken {word : List Char} (h : IsWord word) (hh : '#' ∉ word) :
    SpellsToken word :=
  spellsToken_of_forall h.ne_nil fun c hc => ⟨h.not_isSeparator c hc, fun he => hh (he ▸ hc)⟩

namespace Line

/-! ## Layouts -/

/-- Words in order, with gaps before, between and after them. -/
structure Layout where
  /-- The gap before all words. -/
  first : List Char
  /-- Each word with the gap after it. -/
  pieces : List (List Char × List Char)
  isGap_first : IsGap first
  isWord : ∀ piece ∈ pieces, IsWord piece.1
  isGap : ∀ piece ∈ pieces, IsGap piece.2
  /-- Something separates two words. -/
  gap_ne_nil : ∀ piece ∈ pieces.dropLast, piece.2 ≠ []

namespace Layout

def text (l : Layout) : List Char :=
  l.first ++ l.pieces.flatMap fun piece => piece.1 ++ piece.2

def words (l : Layout) : List String :=
  l.pieces.map fun piece => String.ofList piece.1

/-- Every text can be laid out. -/
theorem exists_text_eq (text : List Char) : ∃ l : Layout, l.text = text := by
  have hempty : IsGap [] := by simp [IsGap]
  induction text with
  | nil => exact ⟨⟨[], [], hempty, by simp, by simp, by simp⟩, rfl⟩
  | cons c text ih =>
    obtain ⟨⟨first, pieces, hfirst, hword, hgap, hne⟩, rfl⟩ := ih
    cases hs : isSeparator c with
    | true =>
      have hg : IsGap (c :: first) := List.forall_mem_cons.2 ⟨hs, hfirst⟩
      exact ⟨⟨c :: first, pieces, hg, hword, hgap, hne⟩, rfl⟩
    | false =>
      by_cases hjoin : first = [] ∧ pieces ≠ []
      · -- the character is the first of the word after it
        obtain ⟨rfl, hp⟩ := hjoin
        obtain ⟨⟨word, gap⟩, pieces, rfl⟩ := List.exists_cons_of_ne_nil hp
        obtain ⟨hw, hwords⟩ := List.forall_mem_cons.1 hword
        have hcw : IsWord (c :: word) :=
          ⟨List.cons_ne_nil c word, List.forall_mem_cons.2 ⟨hs, hw.not_isSeparator⟩⟩
        refine ⟨⟨[], (c :: word, gap) :: pieces, hempty, List.forall_mem_cons.2 ⟨hcw, hwords⟩,
          List.forall_mem_cons.2 (List.forall_mem_cons.1 hgap), ?_⟩, rfl⟩
        cases pieces with
        | nil => simp
        | cons next pieces => exact List.forall_mem_cons.2 (List.forall_mem_cons.1 hne)
      · -- the character is a word of its own
        have hcw : IsWord [c] := ⟨List.cons_ne_nil c [], by simpa using hs⟩
        refine ⟨⟨[], ([c], first) :: pieces, hempty, List.forall_mem_cons.2 ⟨hcw, hword⟩,
          List.forall_mem_cons.2 ⟨hfirst, hgap⟩, ?_⟩, by simp [text]⟩
        cases pieces with
        | nil => simp
        | cons next pieces =>
          exact List.forall_mem_cons.2 ⟨fun he => hjoin ⟨he, List.cons_ne_nil _ _⟩, hne⟩

/-- **A text that is laid out is read as its words**, whatever the comment after it. -/
theorem tokens_text (l : Layout) (hh : ∀ word ∈ l.words, '#' ∉ word.toList) {comment : List Char}
    (hc : IsComment comment) : tokens (l.text ++ comment) = l.words := by
  obtain ⟨first, pieces, hfirst, hword, hgap, hne⟩ := l
  simp only [text, words, List.append_assoc] at hh ⊢
  rw [tokens_gap hfirst]
  induction pieces with
  | nil =>
    cases comment with
    | nil => rfl
    | cons c rest =>
      obtain rfl : c = '#' := hc c rfl
      rfl
  | cons piece pieces ih =>
    obtain ⟨word, gap⟩ := piece
    obtain ⟨hw, hwords⟩ := List.forall_mem_cons.1 hword
    obtain ⟨hg, hgaps⟩ := List.forall_mem_cons.1 hgap
    obtain ⟨hwh, hhs⟩ := List.forall_mem_cons.1 hh
    have hrest : ∀ c ∈ (gap ++ (pieces.flatMap (fun piece => piece.1 ++ piece.2) ++ comment)).head?,
        isSeparator c = true ∨ c = '#' := by
      intro c hm
      cases gap with
      | cons d gap =>
        cases hm
        exact Or.inl (hg c List.mem_cons_self)
      | nil =>
        cases pieces with
        | nil => exact Or.inr (hc c hm)
        | cons next pieces => exact absurd rfl (hne (word, []) List.mem_cons_self)
    have htail : ∀ piece ∈ pieces.dropLast, piece.2 ≠ [] := by
      cases pieces with
      | nil => simp
      | cons next pieces => exact (List.forall_mem_cons.1 hne).2
    rw [List.flatMap_cons, List.append_assoc, List.append_assoc,
      tokens_word (hw.spellsToken (by simpa using hwh)) hrest, tokens_gap hg,
      ih hwords hgaps htail hhs]
    rfl

end Layout

/-! ## The tokens of a line -/

theorem exists_comment (line : Line) :
    ∃ comment, IsComment comment ∧ line = code line ++ comment := by
  refine ⟨line.dropWhile (· != '#'), fun c hc => ?_, List.takeWhile_append_dropWhile.symm⟩
  have hhash := List.head?_dropWhile_not (· != '#') line
  rw [Option.mem_def.1 hc] at hhash
  simpa using hhash

theorem hash_not_mem_code (line : Line) : '#' ∉ code line := by
  intro hm
  have hhash : (line.code.all (· != '#')) = true := List.all_takeWhile
  simpa using List.all_eq_true.1 hhash '#' hm

theorem tokens_code (line : Line) : tokens (code line) = tokens line := by
  rw [tokens, tokens, code_eq_self (hash_not_mem_code line)]

theorem tokens_eq_words {line : Line} {l : Layout} (h : l.text = code line) :
    tokens line = l.words := by
  have hh : ∀ word ∈ l.words, '#' ∉ word.toList := by
    rw [Layout.words, List.forall_mem_map]
    intro piece hp hm
    rw [String.toList_ofList] at hm
    have htext : '#' ∈ l.text :=
      List.mem_append_right _ (List.mem_flatMap.2 ⟨piece, hp, List.mem_append_left _ hm⟩)
    exact hash_not_mem_code line (h ▸ htext)
  have ht : tokens (l.text ++ []) = l.words := l.tokens_text hh (by decide)
  rw [← ht, List.append_nil, h, tokens_code]

/-- Tokens with blanks between them are read as themselves. -/
theorem tokens_join (line : Line) :
    tokens (" ".intercalate (tokens line)).toList = tokens line := by
  have hwords : ∀ word ∈ (tokens line).map String.toList, SpellsToken word := by
    rw [List.forall_mem_map]
    exact fun token ht => spellsToken_of_mem_tokens ht
  rw [String.toList_intercalate, tokens_intercalate (by decide) (by decide) hwords, List.map_map]
  simp [Function.comp_def]

/-- **The tokens of a line are the words of its code**, which goes on to the end of the
    line or to a comment.  The line has some words as its tokens just if its code
    consists of them and of separators before, between and after them.  So a line is
    read as the words that it is made of, whatever stands between them and after a `#`,
    and its tokens with blanks between them are read as themselves. -/
theorem tokens_iff_layout :
    (∀ line : Line, '#' ∉ code line ∧ ∃ comment, IsComment comment ∧ line = code line ++ comment) ∧
    (∀ (line : Line) (words : List String),
      tokens line = words ↔ ∃ l : Layout, l.text = code line ∧ l.words = words) ∧
    (∀ (l : Layout) (comment : List Char), (∀ word ∈ l.words, '#' ∉ word.toList) →
      IsComment comment → tokens (l.text ++ comment) = l.words) ∧
    ∀ line : Line, tokens (" ".intercalate (tokens line)).toList = tokens line := by
  refine ⟨fun line => ⟨hash_not_mem_code line, exists_comment line⟩, fun line words => ⟨?_, ?_⟩,
    fun l comment hh hc => l.tokens_text hh hc, tokens_join⟩
  · rintro rfl
    obtain ⟨l, hl⟩ := Layout.exists_text_eq (code line)
    exact ⟨l, hl, (tokens_eq_words hl).symm⟩
  · rintro ⟨l, hl, rfl⟩
    exact tokens_eq_words hl

/-- Three words with all kinds of separators. -/
def looseLine : Layout where
  first := [',', '\t']
  pieces := [(['i', 'n', 'c'], ['\t', '\t']), (['b', 'x'], [' ', ',', ',', ' ']), (['2'], ['\r'])]
  isGap_first := by decide
  isWord := by decide
  isGap := by decide
  gap_ne_nil := by decide

theorem tokens_iff_layout_looseLine :
    looseLine.words = ["inc", "bx", "2"] ∧
    tokens (looseLine.text ++ ['#', '#', ',', 'a']) = ["inc", "bx", "2"] ∧
    tokens ['i', 'n', 'c', ' ', 'b', 'x', ' ', '2'] = ["inc", "bx", "2"] := by
  obtain ⟨-, -, hrender, hjoin⟩ := tokens_iff_layout
  have hline : tokens (looseLine.text ++ ['#', '#', ',', 'a']) = looseLine.words :=
    hrender looseLine _ (by decide) (by decide)
  have hagain := hjoin (looseLine.text ++ ['#', '#', ',', 'a'])
  rw [hline] at hagain
  exact ⟨rfl, hline, hagain⟩

end Line

end RegisterMachine
