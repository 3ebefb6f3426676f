/-
  Statements, written as a source and read back.

  * `Statement.listing` writes statements, each on a line of its own;
  * `Printable`: a statement whose names are identifiers and whose mnemonic is a
    single token that starts no other kind of line;
  * `tokens_text`: the text of a printable statement has the tokens
    `Statement.words`, and `ofTokens_words`: these are read as the statement;
  * `statements_listing`: the listing of printable statements is read as just
    these statements, in every file system and without a report.
-/
import Mathlib.Tactic
import RegisterMachine.Proofs.Tokens
import RegisterMachine.Source

namespace RegisterMachine

/-! ## Lines of code -/

theorem not_mem_intercalate {c : Char} {separator : List Char} {ls : List (List Char)}
    (hs : c ∉ separator) (h : ∀ l ∈ ls, c ∉ l) : c ∉ separator.intercalate ls := by
  induction ls with
  | nil => simp
  | cons l ls ih =>
    have hl := h l List.mem_cons_self
    have hls := ih fun l' hl' => h l' (List.mem_cons_of_mem l hl')
    cases ls with
    | nil => simpa using hl
    | cons next ls =>
      rw [List.intercalate_cons_cons]
      simp only [List.mem_append, not_or]
      exact ⟨⟨hl, hs⟩, hls⟩

/-- Lines with a line feed between them are the lines of the text. -/
theorem Text.lines_intercalate {ls : List (List Char)} (h : ∀ l ∈ ls, l ≠ [] ∧ '\n' ∉ l) :
    Text.lines (['\n'].intercalate ls) = ls := by
  induction ls with
  | nil => rfl
  | cons l ls ih =>
    obtain ⟨hne, hl⟩ := h l List.mem_cons_self
    cases ls with
    | nil => simpa using Text.lines_eq_singleton hl hne
    | cons next ls =>
      rw [List.intercalate_cons_cons, List.append_assoc, List.singleton_append,
        Text.lines_eq_cons hl, ih fun l' hl' => h l' (List.mem_cons_of_mem l hl')]

/-- A line whose first token is no directive is code. -/
theorem SourceLine.ofLine_eq_code {line : Line} {word : String} {rest : List String}
    (h : line.tokens = word :: rest) (hd : word ≠ defineDirective) (hi : word ≠ includeDirective) :
    ofLine line = .code (word :: rest) := by
  rw [ofLine, h]
  simp only [hd, hi, if_false]

/-- Without definitions and inclusions, lines of code expand to their tokens. -/
theorem Expansion.ofLines_code (inclusion : String → Definitions → Expansion)
    (lines : List (List String)) : ofLines inclusion [] (lines.map .code) = ok [] lines := by
  have hs : ∀ tokens, Definitions.substitute [] tokens = tokens :=
    fun tokens => List.flatMap_singleton' tokens
  induction lines with
  | nil => rfl
  | cons tokens lines ih =>
    rw [List.map_cons, ofLines, ofLine, hs]
    simp only [andThen, ok, Report.of, ih]
    rfl

/-- The statements of a source with nothing but lines of code. -/
theorem Source.statements_of_code {fs : FileSystem} {text : String} {lines : List (List String)}
    (h : SourceLine.ofText text = lines.map .code) :
    Source.statements fs text = .of ((Statement.ofLines lines).mapError .parse) := by
  rw [Source.statements, Expansion.ofSource, h, Expansion.ofLines_code]
  rfl

/-! ## Operands -/

theorem markedLabel?_eq_none_iff {token : String} :
    markedLabel? token = none ↔ ∀ name, Identifier name → token ≠ name ++ ":" := by
  simp only [Option.eq_none_iff_forall_ne_some, ne_eq, markedLabel?_eq_some_iff, isIdentifier_iff,
    not_and]

/-- A token without a colon is no marker. -/
theorem markedLabel?_eq_none {token : String} (h : ':' ∉ token.toList) :
    markedLabel? token = none := by
  rw [markedLabel?_eq_none_iff]
  rintro name - rfl
  simp at h

theorem not_isDigit_of_identifierStart {c : Char} (h : IdentifierStart c) : c.isDigit = false := by
  have hdigits : ∀ d : Char, d.isDigit = true → 48 ≤ d.toNat ∧ d.toNat ≤ 57 := by
    intro d hd
    simp only [Char.isDigit, Bool.and_eq_true, decide_eq_true_eq] at hd
    exact hd
  rw [Bool.eq_false_iff]
  intro hd
  obtain ⟨hlow, hhigh⟩ := hdigits c hd
  rcases h with ⟨ha, -⟩ | ⟨ha, -⟩ | rfl | rfl | rfl
  · have hle : 65 ≤ c.toNat := ha
    omega
  · have hle : 97 ≤ c.toNat := ha
    omega
  all_goals cases hd

/-- No identifier is a literal. -/
theorem Identifier.literal?_eq_none {name : String} (h : Identifier name) :
    literal? name = none := by
  obtain ⟨c, rest, hn, hc, -⟩ := h
  have hm : c ≠ '-' := by
    rintro rfl
    exact absurd (isIdentifierStart_iff.2 hc) (by decide)
  rw [literal?, hn, integer?_cons_eq_none (not_isDigit_of_identifierStart hc) hm, Option.bind_none]

/-- No identifier ends in a colon. -/
theorem Identifier.markedLabel?_eq_none {name : String} (h : Identifier name) :
    markedLabel? name = none :=
  RegisterMachine.markedLabel?_eq_none (h.not_mem rfl)

theorem Argument.ofToken_name {name : String} (h : Identifier name) :
    Argument.ofToken name = .ok (.name name) := by
  rw [Argument.ofToken, h.markedLabel?_eq_none, h.literal?_eq_none]
  simp [isIdentifier_iff.2 h]

theorem Argument.ofToken_integer (value : Word) :
    Argument.ofToken value.text = .ok (.integer value) := by
  have hm : markedLabel? value.text = none :=
    markedLabel?_eq_none (not_mem_decimal rfl (by decide) value.toInt)
  rw [Argument.ofToken, hm, literal?_text]
  rfl

/-- An integer, or a name that is an identifier. -/
inductive PrintableArgument : Argument → Prop
  | name {name} : Identifier name → PrintableArgument (.name name)
  | integer {value} : PrintableArgument (.integer value)

namespace PrintableArgument

variable {a : Argument} (h : PrintableArgument a)
include h

theorem spellsToken_text : SpellsToken a.text.toList := by
  cases h with
  | name hn => exact hn.spellsToken
  | @integer value => exact spellsToken_decimal value.toInt

theorem newline_not_mem_text : '\n' ∉ a.text.toList := by
  cases h with
  | name hn => exact hn.not_mem rfl
  | @integer value => exact not_mem_decimal rfl (by decide) value.toInt

theorem ofToken_text : Argument.ofToken a.text = .ok a := by
  cases h with
  | name hn => exact Argument.ofToken_name hn
  | @integer value => exact Argument.ofToken_integer value

end PrintableArgument

/-- Operands are read from their texts. -/
theorem mapM_ofToken_text {operands : List Argument} (h : ∀ a ∈ operands, PrintableArgument a) :
    (operands.map Argument.text).mapM Argument.ofToken = .ok operands := by
  induction operands with
  | nil => rfl
  | cons a rest ih =>
    rw [List.map_cons, List.mapM_cons, (h a List.mem_cons_self).ofToken_text,
      ih fun b hb => h b (List.mem_cons_of_mem a hb)]
    rfl

/-! ## Printable statements -/

/-- A mnemonic that is one token, neither a directive nor a label marker. -/
structure MnemonicWord (word : String) : Prop where
  ne_empty : word ≠ ""
  not_mem : ∀ c ∈ [' ', '\t', ',', '\r', '\n', '#'], c ∉ word.toList
  ne_define : word ≠ "%define"
  ne_include : word ≠ "%include"
  not_marker : ∀ name, Identifier name → word ≠ name ++ ":"

/-- A statement whose names are identifiers and whose mnemonic is a word. -/
inductive Printable : Statement → Prop
  | label {name} : Identifier name → Printable (.label name)
  | instruction {word operands} : MnemonicWord word → (∀ a ∈ operands, PrintableArgument a) →
      Printable (.instruction word operands)

namespace Statement

/-- The tokens that a statement is written with. -/
def words : Statement → List String
  | label name => [name ++ ":"]
  | instruction word operands => word :: operands.map Argument.text

/-- Statements as a source, one on a line. -/
def listing (code : List Statement) : String :=
  String.intercalate "\n" (code.map text)

end Statement

theorem MnemonicWord.spellsToken {word : String} (h : MnemonicWord word) :
    SpellsToken word.toList where
  ne_nil := fun hn => h.ne_empty (String.toList_eq_nil_iff.1 hn)
  not_mem c hc := h.not_mem c (by fin_cases hc <;> decide)

namespace Statement

/-- The text of an instruction with operands: its mnemonic, a blank, and the operands. -/
theorem toList_text {word : String} {operands : List Argument} (h : operands ≠ []) :
    (text (.instruction word operands)).toList =
      word.toList ++ ' ' :: [',', ' '].intercalate (operands.map (·.text.toList)) := by
  obtain ⟨a, rest, rfl⟩ := List.exists_cons_of_ne_nil h
  simp [text, String.toList_append, String.toList_intercalate, Function.comp_def]

/-- **The text of a printable statement has its words as tokens.** -/
theorem tokens_text {s : Statement} (h : Printable s) : Line.tokens s.text.toList = s.words := by
  cases h with
  | @label name hn =>
    have hl : (text (.label name)).toList = name.toList ++ [':'] := String.toList_append
    have ht : SpellsToken (name.toList ++ [':']) := by
      refine ⟨by simp, fun c hc => ?_⟩
      have hcolon : c ∉ [':'] := by fin_cases hc <;> decide
      simpa only [List.mem_append, not_or] using ⟨hn.spellsToken.not_mem c hc, hcolon⟩
    rw [hl, Line.tokens_eq_singleton ht, ← hl, String.ofList_toList]
    rfl
  | @instruction word operands hw ho =>
    by_cases hne : operands = []
    · subst hne
      rw [show text (.instruction word []) = word from rfl, Line.tokens_eq_singleton hw.spellsToken,
        String.ofList_toList]
      rfl
    · have hops : ∀ l ∈ operands.map (·.text.toList), SpellsToken l := by
        simp only [List.forall_mem_map]
        exact fun a ha => (ho a ha).spellsToken_text
      rw [toList_text hne, Line.tokens_token hw.spellsToken rfl,
        Line.tokens_intercalate (List.cons_ne_nil _ _) (by decide) hops, List.map_map,
        String.ofList_toList]
      simp [words, Function.comp_def]

theorem newline_not_mem_text {s : Statement} (h : Printable s) : '\n' ∉ s.text.toList := by
  cases h with
  | @label name hn =>
    have hname : '\n' ∉ name.toList := hn.not_mem rfl
    simp [text, String.toList_append, hname]
  | @instruction word operands hw ho =>
    have hword : '\n' ∉ word.toList := hw.not_mem '\n' (by decide)
    by_cases hne : operands = []
    · subst hne
      exact hword
    · have hops : '\n' ∉ [',', ' '].intercalate (operands.map (·.text.toList)) := by
        refine not_mem_intercalate (by decide) ?_
        simp only [List.forall_mem_map]
        exact fun a ha => (ho a ha).newline_not_mem_text
      simp [toList_text hne, hword, hops]

theorem text_ne_nil {s : Statement} (h : Printable s) : s.text.toList ≠ [] := by
  intro hn
  have ht := tokens_text h
  rw [hn] at ht
  cases s <;> cases ht

/-- **The words of a printable statement are read as it.** -/
theorem ofTokens_words {s : Statement} (h : Printable s) : ofTokens s.words = .ok [s] := by
  cases h with
  | @label name hn =>
    have hm : markedLabel? (name ++ ":") = some name :=
      markedLabel?_eq_some_iff.2 ⟨isIdentifier_iff.2 hn, rfl⟩
    rw [words, ofTokens, hm]
    rfl
  | @instruction word operands hw ho =>
    rw [words, ofTokens, markedLabel?_eq_none_iff.2 hw.not_marker, mapM_ofToken_text ho]
    rfl

/-- The line of a printable statement is code. -/
theorem ofLine_text {s : Statement} (h : Printable s) :
    SourceLine.ofLine s.text.toList = .code s.words := by
  have ht := tokens_text h
  cases h with
  | @label name hn =>
    have hpercent : '%' ∉ (name ++ ":").toList := by
      have hname : '%' ∉ name.toList := hn.not_mem rfl
      simp [String.toList_append, hname]
    refine SourceLine.ofLine_eq_code ht ?_ ?_ <;>
      exact fun he => hpercent (he ▸ by decide)
  | @instruction word operands hw ho =>
    exact SourceLine.ofLine_eq_code ht hw.ne_define hw.ne_include

theorem ofText_listing {code : List Statement} (h : ∀ s ∈ code, Printable s) :
    SourceLine.ofText (listing code) = (code.map words).map .code := by
  have hl : (listing code).toList = ['\n'].intercalate (code.map (·.text.toList)) := by
    rw [listing, String.toList_intercalate, List.map_map]
    rfl
  have hlines : ∀ l ∈ code.map (·.text.toList), l ≠ [] ∧ '\n' ∉ l := by
    simp only [List.forall_mem_map]
    exact fun s hs => ⟨text_ne_nil (h s hs), newline_not_mem_text (h s hs)⟩
  rw [SourceLine.ofText, hl, Text.lines_intercalate hlines, List.map_map, List.map_map]
  exact List.map_congr_left fun s hs => ofLine_text (h s hs)

theorem ofLinesFrom_words {code : List Statement} (h : ∀ s ∈ code, Printable s) (first : Nat) :
    ofLinesFrom first (code.map words) = .ok code := by
  induction code generalizing first with
  | nil => rfl
  | cons s code ih =>
    rw [List.map_cons, ofLinesFrom, ofTokens_words (h s List.mem_cons_self)]
    simp only [ih fun s' hs => h s' (List.mem_cons_of_mem s hs)]
    rfl

end Statement

/-- A text whose lines are the words of printable statements has just these. -/
theorem Source.statements_of_words (fs : FileSystem) {text : String} {code : List Statement}
    (hl : SourceLine.ofText text = (code.map Statement.words).map .code)
    (h : ∀ s ∈ code, Printable s) : Source.statements fs text = .of (.ok code) := by
  rw [Source.statements_of_code hl, Statement.ofLines, Statement.ofLinesFrom_words h]
  rfl

/-- **A listing is read as the statements that it lists**, in every file system
    and without a report, if their names are identifiers and their mnemonics are
    words. -/
theorem statements_listing (fs : FileSystem) {code : List Statement} (h : ∀ s ∈ code, Printable s) :
    Source.statements fs (Statement.listing code) = .of (.ok code) :=
  Source.statements_of_words fs (Statement.ofText_listing h) h

/-! Whether a statement is printable can be computed. -/

instance : DecidablePred PrintableArgument
  | .name name => decidable_of_iff (Identifier name) ⟨.name, fun | .name h => h⟩
  | .integer _ => .isTrue .integer

instance : DecidablePred MnemonicWord := fun word =>
  decidable_of_iff
    (word ≠ "" ∧ [' ', '\t', ',', '\r', '\n', '#'].all (· ∉ word.toList) = true ∧
      word ≠ "%define" ∧ word ≠ "%include" ∧ markedLabel? word = none)
    ⟨fun ⟨h1, h2, h3, h4, h5⟩ =>
        ⟨h1, fun c hc => of_decide_eq_true (List.all_eq_true.1 h2 c hc), h3, h4,
          markedLabel?_eq_none_iff.1 h5⟩,
      fun h => ⟨h.1, List.all_eq_true.2 fun c hc => decide_eq_true (h.2 c hc), h.3, h.4,
        markedLabel?_eq_none_iff.2 h.5⟩⟩

instance : DecidablePred Printable
  | .label name => decidable_of_iff (Identifier name) ⟨.label, fun | .label h => h⟩
  | .instruction word operands =>
    decidable_of_iff (MnemonicWord word ∧ ∀ a ∈ operands, PrintableArgument a)
      ⟨fun h => .instruction h.1 h.2, fun | .instruction hw ho => ⟨hw, ho⟩⟩

/-- A register as a label, the least word, and mnemonics that are almost
    something else. -/
def extremes : List Statement :=
  [.label "ax", .instruction "mov" [.name "$1", .integer Int64.minValue, .name "_"],
    .instruction "%define:" [], .instruction "0x1:" [.integer 0]]

theorem statements_listing_extremes :
    (∀ s ∈ extremes, Printable s) ∧
      Source.statements (.ofTable []) "ax:\nmov $1, -9223372036854775808, _\n%define:\n0x1: 0" =
        .of (.ok extremes) := by
  have h : ∀ s ∈ extremes, Printable s := by decide
  have hl : Statement.listing extremes =
      "ax:\nmov $1, -9223372036854775808, _\n%define:\n0x1: 0" := by decide
  exact ⟨h, hl ▸ statements_listing (.ofTable []) h⟩

end RegisterMachine
