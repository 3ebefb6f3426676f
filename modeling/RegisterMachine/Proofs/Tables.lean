/-
  What the pass of the definitions keeps, and where it stops.

  * `Table.line_cases`: what a line can do to a table.  The rest is by cases on
    that, and by induction on the lines;
  * `Table.Holds table later`: every definition is still there later;
  * `Table.Tokenized`: a definition stands for at least one token, and for tokens
    only.  Then a substitution drops none (`exists_substitute`);
  * `Table.exists_failure`: a pass that fails has carried out all the lines before
    the error, and nothing more;
  * `Table.Gives`, `Table.forall₂_lines`: what the lines come to.  Every token has
    something in its place, so only a silent line comes to nothing.
-/
import RegisterMachine.Proofs.Flattening
import RegisterMachine.Proofs.Tokens

namespace RegisterMachine

/-! ## Lines of texts -/

theorem Text.newline_not_mem {text line : List Char} (h : line ∈ Text.lines text) :
    '\n' ∉ line := by
  have hp : line ∈ text.splitOn '\n' := by
    simp only [Text.lines] at h
    split_ifs at h
    · exact List.dropLast_subset _ h
    · exact h
  intro hm
  have hn := (Line.forall_mem_splitOnP hp '\n' hm).2
  simp at hn

/-- A token of source, without line feed. -/
structure SourceToken (token : String) : Prop where
  spells : SpellsToken token.toList
  newline_not_mem : '\n' ∉ token.toList

theorem sourceToken_of_mem_tokens {line : Line} (h : '\n' ∉ line) {token : String}
    (ht : token ∈ line.tokens) : SourceToken token where
  spells := Line.spellsToken_of_mem_tokens ht
  newline_not_mem hm := h (Line.mem_of_mem_tokens ht hm)

mutual

/-- Flat lines are lines of texts. -/
theorem FlattensFile.forall_lines {fs : FileSystem} {P : Line → Prop}
    (h : ∀ text, ∀ line ∈ Text.lines text, P line) : ∀ {opened : List String} {name : String}
    {flat : Flat}, FlattensFile fs opened name flat → ∀ line ∈ flat.lines, P line
  | _, _, _, .unnamed => List.forall_mem_nil P
  | _, _, _, .recursive .. => List.forall_mem_nil P
  | _, _, _, .unreadable .. => List.forall_mem_nil P
  | _, _, _, .readable _ _ _ hl => hl.forall_lines h (h _)

theorem FlattensLines.forall_lines {fs : FileSystem} {P : Line → Prop}
    (h : ∀ text, ∀ line ∈ Text.lines text, P line) : ∀ {opened : List String} {lines : List Line}
    {flat : Flat}, FlattensLines fs opened lines flat → (∀ line ∈ lines, P line) →
      ∀ line ∈ flat.lines, P line
  | _, _, _, .nil, _ => List.forall_mem_nil P
  | _, _, _, .line _ hl, hs => by
    obtain ⟨hline, hrest⟩ := List.forall_mem_cons.1 hs
    exact List.forall_mem_cons.2 ⟨hline, hl.forall_lines h hrest⟩
  | _, _, _, @FlattensLines.inclusion _ _ _ _ _ file later _ hf hl, hs => by
    have hfile := hf.forall_lines h
    have hlater := hl.forall_lines h (List.forall_mem_cons.1 hs).2
    obtain ⟨lines, _ | e⟩ := file
    · exact List.forall_mem_append.2 ⟨hfile, hlater⟩
    · exact hfile

end

namespace Table

/-! ## One line -/

/-- What a line can do: it fails, it adds a definition, or it is code. -/
theorem line_cases (table : Table) (line : Line) :
    (∃ e, table.line line = ⟨table, .error e⟩ ∧ ∀ name, e ≠ .recursiveInclude name) ∨
    (∃ name value, line.tokens = SourceLine.defineDirective :: name :: value ∧ value ≠ [] ∧
      table name = none ∧ table.line line =
        ⟨Function.update table name (some (table.substitute value)), .ok [[]]⟩) ∨
    (line.tokens.head? ≠ some SourceLine.defineDirective ∧
      table.line line = ⟨table, .ok [table.substitute line.tokens]⟩) := by
  by_cases hd : line.tokens.head? = some SourceLine.defineDirective
  · obtain ⟨words, ht⟩ := List.head?_eq_some_iff.1 hd
    have hl : table.line line = table.define words := by
      rw [Table.line, if_pos hd, ht, List.tail_cons]
    rw [hl, ht]
    rcases words with _ | ⟨name, _ | ⟨word, value⟩⟩
    · exact Or.inl ⟨_, rfl, by simp⟩
    · exact Or.inl ⟨_, rfl, by simp⟩
    · cases hn : table name with
      | some old => exact Or.inl ⟨.duplicateDefine name old (table.substitute (word :: value)),
          by simp only [define, hn], by simp⟩
      | none => exact Or.inr (Or.inl ⟨name, word :: value, rfl, by simp, hn,
          by simp only [define, hn]⟩)
  · exact Or.inr (Or.inr ⟨hd, if_neg hd⟩)

/-! ## Definitions stay -/

/-- What a table defines is defined alike later. -/
def Holds (table later : Table) : Prop :=
  ∀ name value, table name = some value → later name = some value

theorem Holds.refl (table : Table) : table.Holds table :=
  fun _ _ h => h

theorem Holds.trans {table later last : Table} (h : table.Holds later) (hl : later.Holds last) :
    table.Holds last :=
  fun name value hn => hl name value (h name value hn)

theorem holds_update {table : Table} {name : String} (h : table name = none) (value : List String) :
    table.Holds (Function.update table name (some value)) := by
  intro other old ho
  have hne : other ≠ name := by
    rintro rfl
    rw [h] at ho
    cases ho
  rwa [Function.update_of_ne hne]

theorem holds_line (table : Table) (line : Line) : table.Holds (table.line line).table := by
  rcases table.line_cases line with ⟨e, hl, -⟩ | ⟨name, value, -, -, hn, hl⟩ | ⟨-, hl⟩
  · rw [hl]
    exact .refl table
  · rw [hl]
    exact holds_update hn _
  · rw [hl]
    exact .refl table

/-! ## Values are tokens -/

/-- Each name stands for at least one token, and for tokens only. -/
def Tokenized (table : Table) : Prop :=
  ∀ name value, table name = some value → value ≠ [] ∧ ∀ token ∈ value, SourceToken token

theorem tokenized_empty : Tokenized fun _ => none := by
  intro name value h
  cases h

namespace Tokenized

variable {table : Table} (h : table.Tokenized)
include h

/-- A token is replaced by one token at least. -/
theorem getD_ne_nil (token : String) : (table token).getD [token] ≠ [] := by
  cases hv : table token with
  | none => simp
  | some value => exact (h token value hv).1

/-- **A substitution drops no token**: each has something in its place. -/
theorem exists_substitute (before : List String) (token : String) (after : List String) :
    ∃ new, new ≠ [] ∧ table.substitute (before ++ token :: after) =
      table.substitute before ++ new ++ table.substitute after :=
  ⟨_, h.getD_ne_nil token, by simp [substitute]⟩

theorem substitute_eq_nil_iff {tokens : List String} :
    table.substitute tokens = [] ↔ tokens = [] := by
  constructor
  · intro hs
    cases tokens with
    | nil => rfl
    | cons token rest =>
      have ht := List.flatMap_eq_nil_iff.1 hs token List.mem_cons_self
      exact absurd ht (h.getD_ne_nil token)
  · rintro rfl
    rfl

theorem substitute {tokens : List String} (ht : ∀ token ∈ tokens, SourceToken token) :
    ∀ token ∈ table.substitute tokens, SourceToken token := by
  intro token hm
  obtain ⟨source, hs, hm⟩ := List.mem_flatMap.1 hm
  cases hv : table source with
  | none =>
    rw [hv, Option.getD_none, List.mem_singleton] at hm
    exact hm ▸ ht source hs
  | some value =>
    rw [hv, Option.getD_some] at hm
    exact (h source value hv).2 token hm

theorem update {value : List String} (hne : value ≠ [])
    (hv : ∀ token ∈ value, SourceToken token) (name : String) :
    Tokenized (Function.update table name (some value)) := by
  intro other new hn
  rw [Function.update_apply] at hn
  split_ifs at hn
  · cases hn
    exact ⟨hne, hv⟩
  · exact h other new hn

theorem line {line : Line} (hl : '\n' ∉ line) : (table.line line).table.Tokenized := by
  rcases table.line_cases line with ⟨e, he, -⟩ | ⟨name, value, ht, hne, -, he⟩ | ⟨-, he⟩
  · rwa [he]
  · rw [he]
    have hvalue : ∀ token ∈ value, SourceToken token := fun token hm =>
      sourceToken_of_mem_tokens hl (by simp [ht, hm])
    exact h.update (mt h.substitute_eq_nil_iff.1 hne) (h.substitute hvalue) name
  · rwa [he]

end Tokenized

/-! ## Many lines -/

/-- What each line keeps is kept by the pass over all. -/
theorem lines_induction {P : Table → Prop} {ls : List Line}
    (h : ∀ line ∈ ls, ∀ table, P table → P (Table.line table line).table)
    (stop : Option ExpansionError) {table : Table} (ht : P table) :
    P (lines stop ls table).table := by
  induction ls generalizing table with
  | nil => cases stop <;> exact ht
  | cons line rest ih =>
    have hl := h line List.mem_cons_self table ht
    rw [lines]
    rcases hp : table.line line with ⟨table', e | out⟩
    · rwa [hp] at hl
    · rw [hp] at hl
      exact ih (fun l hm => h l (List.mem_cons_of_mem line hm)) hl

theorem holds_lines (stop : Option ExpansionError) (ls : List Line) (table : Table) :
    table.Holds (lines stop ls table).table :=
  lines_induction (fun line _ later h => h.trans (holds_line later line)) stop (.refl table)

/-- The next of some lines fails, or there is none and the inclusion after them
    fails. -/
def FailsAt (table : Table) (stop : Option ExpansionError) (e : ExpansionError) :
    List Line → Prop
  | [] => stop = some e
  | line :: _ => (Table.line table line).result = .error e

/-- **A pass that fails has carried out the lines before the error**, and leaves
    what they define. -/
theorem exists_failure {stop : Option ExpansionError} {ls : List Line} {table : Table}
    {e : ExpansionError} (h : (lines stop ls table).result = .error e) :
    ∃ before rest out, ls = before ++ rest ∧
      lines none before table = ⟨(lines stop ls table).table, .ok out⟩ ∧
      (lines stop ls table).table.FailsAt stop e rest := by
  induction ls generalizing table with
  | nil =>
    cases stop with
    | none => cases h
    | some e' =>
      cases h
      exact ⟨[], [], [], rfl, rfl, rfl⟩
  | cons line rest ih =>
    rw [lines] at h ⊢
    rcases table.line_cases line with ⟨e', hl, -⟩ | hl
    · rw [hl] at h ⊢
      cases h
      exact ⟨[], line :: rest, [], rfl, rfl, congrArg Pass.result hl⟩
    · obtain ⟨table', out, hl⟩ : ∃ table' out, table.line line = ⟨table', .ok out⟩ := by
        rcases hl with ⟨_, _, -, -, -, hl⟩ | ⟨-, hl⟩ <;> exact ⟨_, _, hl⟩
      rw [hl, Pass.andThen_ok] at h ⊢
      cases hr : (lines stop rest table').result with
      | ok lines => simp [hr, Except.map] at h
      | error e' =>
        rw [hr] at h
        cases h
        obtain ⟨before, later, out', rfl, hb, hf⟩ := ih hr
        refine ⟨line :: before, later, out ++ out', rfl, ?_, hf⟩
        rw [lines, hl, Pass.andThen_ok, hb]
        rfl

/-- A pass reports only the recursion that stops it. -/
theorem stop_of_recursive {stop : Option ExpansionError} {ls : List Line} {table : Table}
    {name : String} (h : (lines stop ls table).result = .error (.recursiveInclude name)) :
    stop = some (.recursiveInclude name) := by
  obtain ⟨before, rest, out, -, -, hf⟩ := exists_failure h
  cases rest with
  | nil => exact hf
  | cons line rest =>
    rw [FailsAt] at hf
    rcases Table.line_cases _ line with ⟨e, hl, he⟩ | ⟨_, _, -, -, -, hl⟩ | ⟨-, hl⟩
    all_goals
      rw [hl] at hf
      cases hf
    exact absurd rfl (he name)

/-! ## What lines come to -/

/-- A line that comes to no tokens: it has none, or it is a definition. -/
def Silent (line : Line) : Prop :=
  line.tokens = [] ∨ line.tokens.head? = some SourceLine.defineDirective

/-- What stands in the place of a token: the token itself, or its value. -/
structure Replaces (table : Table) (token : String) (new : List String) : Prop where
  ne_nil : new ≠ []
  token_or_value : new = [token] ∨ table token = some new

/-- What a line comes to, by a table that has all that it defines: nothing if it
    is a definition, and else what stands in the place of its tokens. -/
inductive Gives (table : Table) (line : Line) : List String → Prop
  | definition : line.tokens.head? = some SourceLine.defineDirective → Gives table line []
  | code {news} : line.tokens.head? ≠ some SourceLine.defineDirective →
      List.Forall₂ table.Replaces line.tokens news → Gives table line news.flatten

theorem Tokenized.gives_substitute {table later : Table} (ht : table.Tokenized)
    (hl : table.Holds later) {line : Line}
    (hd : line.tokens.head? ≠ some SourceLine.defineDirective) :
    Gives later line (table.substitute line.tokens) := by
  have hnews : List.Forall₂ later.Replaces line.tokens
      (line.tokens.map fun token => (table token).getD [token]) := by
    refine List.forall₂_map_right_iff.2 (List.forall₂_same.2 fun token _ => ?_)
    refine ⟨ht.getD_ne_nil token, ?_⟩
    cases hv : table token with
    | none => exact Or.inl rfl
    | some value => exact Or.inr (hl token value hv)
  exact .code hd hnews

/-- A line comes to nothing just if it is silent. -/
theorem Gives.eq_nil_iff {table : Table} {line : Line} {tokens : List String}
    (h : Gives table line tokens) : tokens = [] ↔ Silent line := by
  cases h with
  | definition hd => simp [Silent, hd]
  | @code news hd hn =>
    rw [Silent, or_iff_left hd]
    generalize line.tokens = words at hn ⊢
    cases hn with
    | nil => simp
    | cons hr _ => simp [hr.ne_nil]

/-- **Every line comes to one line**, which has something for each token if the
    line is no definition. -/
theorem forall₂_lines {ls : List Line} (hls : ∀ line ∈ ls, '\n' ∉ line) {table table' : Table}
    (ht : table.Tokenized) {stop : Option ExpansionError} {out : List (List String)}
    (h : lines stop ls table = ⟨table', .ok out⟩) : List.Forall₂ table'.Gives ls out := by
  induction ls generalizing table out with
  | nil =>
    cases stop with
    | none =>
      cases h
      exact .nil
    | some e => cases h
  | cons line rest ih =>
    obtain ⟨hline, hrest⟩ := List.forall_mem_cons.1 hls
    have ht' := ht.line hline
    have hkeeps : table.Holds table' := by
      have hh := holds_lines stop (line :: rest) table
      rwa [h] at hh
    rw [lines] at h
    have hone : ∃ table₁ tokens, table.line line = ⟨table₁, .ok [tokens]⟩ ∧
        table'.Gives line tokens := by
      rcases table.line_cases line with ⟨e, hl, -⟩ | ⟨name, value, hd, -, -, hl⟩ | ⟨hd, hl⟩
      · rw [hl] at h
        cases h
      · exact ⟨_, _, hl, .definition (by simp [hd])⟩
      · exact ⟨_, _, hl, ht.gives_substitute hkeeps hd⟩
    obtain ⟨table₁, tokens, hl, hgives⟩ := hone
    rw [hl] at ht'
    rw [hl, Pass.andThen_ok] at h
    rcases hr : lines stop rest table₁ with ⟨table₂, e | later⟩
    · simp [hr, Except.map] at h
    · rw [hr] at h
      cases h
      exact .cons hgives (ih hrest ht' hr)

end Table

end RegisterMachine
