/-
  The numbers of lines.

  The lines of a source are numbered before they are expanded, and a parse error
  has the number of a line afterwards.  Every line of the source gives one line,
  but for the inclusions, which give as many as their files do.

  * `FileSpan fs name count`, `LinesSpan fs lines count`: how many lines the
    inclusion of a file and a list of lines give;
  * `Layout fs definitions lines blocks`: what each line of a source gives.
    `exists_layout`: the expansion of a source is made up of it;
  * `Layout.index_eq`: what a line gives starts at the number of the line, shifted by
    the inclusions before it;
  * `lines_numbered`: where each line is found after expansion.  So a parse error
    before the first inclusion has the number of the line in the source.
-/
import RegisterMachine.Proofs.Flattening
import RegisterMachine.Proofs.LineGrammar

namespace RegisterMachine

/-! ## Spans -/

mutual

/-- How many lines the inclusion of a file gives. -/
inductive FileSpan (fs : FileSystem) : String → Nat → Prop
  | mk {name text count} : fs.read name = .ok text →
      LinesSpan fs (Text.lines text.toList) count → FileSpan fs name count

/-- How many lines some lines give: each of them one, but an inclusion as many as
    its file. -/
inductive LinesSpan (fs : FileSystem) : List Line → Nat → Prop
  | nil : LinesSpan fs [] 0
  | line {line rest count} : included? line = none → LinesSpan fs rest count →
      LinesSpan fs (line :: rest) (1 + count)
  | inclusion {line rest name file count} : included? line = some name → FileSpan fs name file →
      LinesSpan fs rest count → LinesSpan fs (line :: rest) (file + count)

end

mutual

theorem FileSpan.unique {fs : FileSystem} : ∀ {name : String} {count : Nat},
    FileSpan fs name count → ∀ count', FileSpan fs name count' → count = count'
  | _, _, .mk hr hl, _, h => by
    have ih := hl.unique
    cases h with
    | mk hr' hl' =>
      cases hr.symm.trans hr'
      exact ih _ hl'

theorem LinesSpan.unique {fs : FileSystem} : ∀ {lines : List Line} {count : Nat},
    LinesSpan fs lines count → ∀ count', LinesSpan fs lines count' → count = count'
  | _, _, .nil, _, h => by
    cases h
    rfl
  | _, _, .line hi hl, _, h => by
    have ih := hl.unique
    cases h with
    | line _ hl' => rw [ih _ hl']
    | inclusion hi' => cases hi.symm.trans hi'
  | _, _, .inclusion hi hf hl, _, h => by
    have ihf := hf.unique
    have ihl := hl.unique
    cases h with
    | line hi' => cases hi.symm.trans hi'
    | inclusion hi' hf' hl' =>
      cases hi.symm.trans hi'
      rw [ihf _ hf', ihl _ hl']

end

namespace Expansion

variable {fs : FileSystem} {inclusion : String → Definitions → Expansion}
  {definitions : Definitions}

/-! ## What lines give -/

theorem result_andThen_eq_ok_iff {first : Expansion} {next : Definitions → Expansion}
    {out : List (List String)} :
    (first.andThen next).report.result = .ok out ↔
      ∃ before later, first.report.result = .ok before ∧
        (next first.definitions).report.result = .ok later ∧ before ++ later = out := by
  obtain ⟨defs, events, e | lines⟩ := first
  · simp [andThen]
  · simp [andThen, map_eq_ok_iff]

theorem definitions_andThen_of_ok {first : Expansion} {before : List (List String)}
    (h : first.report.result = .ok before) (next : Definitions → Expansion) :
    (first.andThen next).definitions = (next first.definitions).definitions := by
  rw [andThen, h]

/-- The line that a line without inclusion gives: none of its tokens if it is a
    definition, and else its tokens with the defined names replaced. -/
def given (definitions : Definitions) (line : Line) : List String :=
  if line.tokens.head? = some SourceLine.defineDirective then []
  else definitions.substitute line.tokens

theorem ofLine_of_included?_eq_none {line : Line} (hi : included? line = none) :
    SourceLine.ofLine line =
      if line.tokens.head? = some SourceLine.defineDirective then .definition line.tokens.tail
      else .code line.tokens := by
  unfold included? at hi
  unfold SourceLine.ofLine
  cases ht : line.tokens with
  | nil => rfl
  | cons token rest =>
    rw [ht] at hi
    have hne : token ≠ SourceLine.includeDirective := by
      rintro rfl
      simp at hi
    by_cases hd : token = SourceLine.defineDirective <;> simp [hd, hne]

/-- **A line without inclusion gives one line.** -/
theorem eq_given_of_ofLine {line : Line} (hi : included? line = none) {block : List (List String)}
    (h : (ofLine inclusion definitions (SourceLine.ofLine line)).report.result = .ok block) :
    block = [given definitions line] := by
  rw [ofLine_of_included?_eq_none hi] at h
  unfold given
  split_ifs at h ⊢
  · rw [ofLine] at h
    split at h
    · cases h
    · cases h
      rfl
  · cases h
    rfl

/-- Lines span what they give, if inclusions do. -/
theorem linesSpan_of_ofLines
    (hf : ∀ name defs out, (inclusion name defs).report.result = .ok out →
      FileSpan fs name out.length) {lines : List Line} {out : List (List String)}
    (h : (ofLines inclusion definitions (lines.map SourceLine.ofLine)).report.result = .ok out) :
    LinesSpan fs lines out.length := by
  induction lines generalizing definitions out with
  | nil =>
    cases h
    exact .nil
  | cons line rest ih =>
    obtain ⟨before, later, hb, hl, rfl⟩ := result_andThen_eq_ok_iff.1 h
    rw [List.length_append]
    cases hi : included? line with
    | none =>
      rw [eq_given_of_ofLine hi hb]
      exact .line hi (ih hl)
    | some name =>
      rw [ofLine_eq_inclusion_iff.2 hi] at hb
      exact .inclusion hi (hf name definitions before hb) (ih hl)

theorem fileSpan_of_ofFile {d : Nat} {opened : List String} {name : String}
    {out : List (List String)} (h : (ofFile fs d opened name definitions).report.result = .ok out) :
    FileSpan fs name out.length := by
  induction d generalizing opened name definitions out with
  | zero => cases h
  | succ d ih =>
    unfold ofFile at h
    split_ifs at h
    · cases h
    · cases h
    · cases hr : fs.read name with
      | error cause =>
        rw [hr] at h
        cases h
      | ok text =>
        rw [hr] at h
        exact .mk hr (linesSpan_of_ofLines (fun _ _ _ => ih) h)

/-! ## Layouts -/

/-- The definitions that the lines of a source before some place leave. -/
def definitionsBefore (fs : FileSystem) (definitions : Definitions) (lines : List Line)
    (place : Nat) : Definitions :=
  (ofLines (ofFile fs (depth fs) []) definitions
    ((lines.take place).map SourceLine.ofLine)).definitions

/-- What each line of a source gives. -/
structure Layout (fs : FileSystem) (definitions : Definitions) (lines : List Line)
    (blocks : List (List (List String))) : Prop where
  length_eq : blocks.length = lines.length
  line : ∀ (i : Nat) line, lines[i]? = some line → included? line = none →
    blocks[i]? = some [given (definitionsBefore fs definitions lines i) line]
  inclusion : ∀ (i : Nat) name, lines[i]?.bind included? = some name →
    ∀ count, FileSpan fs name count ↔ count = (blocks[i]?.getD []).length

theorem definitionsBefore_cons {line : Line} {rest : List Line} {block : List (List String)}
    (h : (ofLine (ofFile fs (depth fs) []) definitions (SourceLine.ofLine line)).report.result =
      .ok block) (i : Nat) :
    definitionsBefore fs definitions (line :: rest) (i + 1) = definitionsBefore fs
      (ofLine (ofFile fs (depth fs) []) definitions (SourceLine.ofLine line)).definitions rest i :=
  definitions_andThen_of_ok h _

theorem layout_cons {line : Line} {rest : List Line} {block : List (List String)}
    {blocks : List (List (List String))}
    (h : (ofLine (ofFile fs (depth fs) []) definitions (SourceLine.ofLine line)).report.result =
      .ok block)
    (hl : Layout fs
      (ofLine (ofFile fs (depth fs) []) definitions (SourceLine.ofLine line)).definitions
      rest blocks) : Layout fs definitions (line :: rest) (block :: blocks) where
  length_eq := congrArg (· + 1) hl.length_eq
  line := by
    intro i other ho hi
    cases i with
    | zero =>
      cases ho
      exact congrArg some (eq_given_of_ofLine hi h)
    | succ i =>
      rw [definitionsBefore_cons h]
      exact hl.line i other ho hi
  inclusion := by
    intro i name hi
    cases i with
    | zero =>
      have hi : included? line = some name := hi
      rw [ofLine_eq_inclusion_iff.2 hi] at h
      have hspan : FileSpan fs name block.length := fileSpan_of_ofFile h
      exact fun count => ⟨fun hc => hc.unique _ hspan, fun hc => hc ▸ hspan⟩
    | succ i => exact hl.inclusion i name hi

/-- **An expansion is made up of what the lines give.** -/
theorem exists_layout {lines : List Line} {out : List (List String)}
    (h : (ofLines (ofFile fs (depth fs) []) definitions
      (lines.map SourceLine.ofLine)).report.result = .ok out) :
    ∃ blocks, Layout fs definitions lines blocks ∧ blocks.flatten = out := by
  induction lines generalizing definitions out with
  | nil =>
    cases h
    exact ⟨[], ⟨rfl, by simp, by simp⟩, rfl⟩
  | cons line rest ih =>
    obtain ⟨block, later, hb, hl, rfl⟩ := result_andThen_eq_ok_iff.1 h
    obtain ⟨blocks, hblocks, rfl⟩ := ih hl
    exact ⟨block :: blocks, layout_cons hb hblocks, rfl⟩

/-! ## Numbers -/

/-- The number of a line, shifted by the inclusions before it: each of them gives
    `count` lines in the place of one. -/
def shiftedNumber (lines : List Line) (count : Nat → Nat) (i : Nat) : Int :=
  i + ∑ j ∈ Finset.range i with (lines[j]?.bind included?).isSome, ((count j : Int) - 1)

theorem shiftedNumber_succ (lines : List Line) (count : Nat → Nat) (i : Nat) :
    shiftedNumber lines count (i + 1) = shiftedNumber lines count i +
      if (lines[i]?.bind included?).isSome then (count i : Int) else 1 := by
  simp only [shiftedNumber, Finset.sum_filter, Finset.sum_range_succ]
  split_ifs <;> push_cast <;> ring

theorem shiftedNumber_of_forall {lines : List Line} {i : Nat}
    (h : ∀ line ∈ lines.take i, included? line = none) (count : Nat → Nat) :
    shiftedNumber lines count i = i := by
  have hempty : ∀ j ∈ Finset.range i, ¬ (lines[j]?.bind included?).isSome = true := by
    intro j hj
    rw [Finset.mem_range] at hj
    cases hl : lines[j]? with
    | none => simp
    | some line =>
      have hm : line ∈ lines.take i := List.mem_of_getElem? (by rwa [List.getElem?_take_of_lt hj])
      simp [h line hm]
  rw [shiftedNumber, Finset.filter_false_of_mem hempty, Finset.sum_empty, Int.add_zero]

/-- **What a line gives starts at its shifted number.** -/
theorem Layout.index_eq {lines : List Line} {blocks : List (List (List String))}
    (h : Layout fs definitions lines blocks) {i : Nat} (hi : i ≤ lines.length) :
    ((blocks.take i).flatten.length : Int) =
      shiftedNumber lines (fun j => (blocks[j]?.getD []).length) i := by
  induction i with
  | zero => simp [shiftedNumber]
  | succ i ih =>
    have hlt : i < blocks.length := h.length_eq ▸ hi
    have hline : lines[i]? = some lines[i] := List.getElem?_eq_getElem hi
    have hnext : (blocks.take (i + 1)).flatten.length =
        (blocks.take i).flatten.length + (blocks[i]?.getD []).length := by
      rw [List.take_add_one, List.flatten_append, List.length_append,
        List.getElem?_eq_getElem hlt]
      simp
    rw [hnext, Nat.cast_add, ih (Nat.le_of_succ_le hi), shiftedNumber_succ, hline,
      Option.bind_some]
    cases hinc : included? lines[i] with
    | none =>
      rw [h.line i _ hline hinc]
      rfl
    | some name => rfl

/-- What a line without inclusion gives is found at its shifted number. -/
theorem Layout.exists_index {lines : List Line} {blocks : List (List (List String))}
    (h : Layout fs definitions lines blocks) {i : Nat} {line : Line}
    (hl : lines[i]? = some line) (hi : included? line = none) :
    ∃ index : Nat,
      (index : Int) = shiftedNumber lines (fun j => (blocks[j]?.getD []).length) i ∧
        blocks.flatten[index]? = some (given (definitionsBefore fs definitions lines i) line) := by
  obtain ⟨hlt, -⟩ := List.getElem?_eq_some_iff.1 hl
  refine ⟨(blocks.take i).flatten.length, h.index_eq hlt.le, ?_⟩
  obtain ⟨hlt', hblock⟩ := List.getElem?_eq_some_iff.1 (h.line i line hl hi)
  have hsplit : blocks.flatten = (blocks.take i).flatten ++
      given (definitionsBefore fs definitions lines i) line :: (blocks.drop (i + 1)).flatten := by
    rw [← List.singleton_append, ← hblock, ← List.flatten_cons, ← List.drop_eq_getElem_cons hlt',
      ← List.flatten_append, List.take_append_drop]
  rw [hsplit, List.getElem?_append_right le_rfl, Nat.sub_self]
  rfl

end Expansion

/-! ## The line of a parse error -/

/-- The token that is at fault. -/
def TokenFault.token : TokenFault → String
  | invalidToken token => token
  | unexpectedLabel token => token

theorem Violation.token_eq {token : String} {fault : TokenFault} (h : Violation token fault) :
    fault.token = token := by
  cases h <;> rfl

theorem LineFault.token_mem {tokens : List String} {fault : TokenFault}
    (h : LineFault tokens fault) : fault.token ∈ tokens := by
  obtain ⟨rest, place, token, ⟨-, -⟩, hfirst, hv⟩ := h
  have hmem : token ∈ rest := List.mem_of_getElem? hfirst.here
  rw [hv.token_eq]
  exact List.mem_append_right _ (List.mem_cons_of_mem _ hmem)

theorem not_lineFault_nil {fault : TokenFault} : ¬ LineFault [] fault :=
  fun h => List.not_mem_nil h.token_mem

open Expansion

theorem Source.statements_eq_parse_iff {fs : FileSystem} {source : String} {e : ParseError} :
    (statements fs source).result = .error (.parse e) ↔
      ∃ out, (ofSource fs [] source).report.result = .ok out ∧
        Statement.ofLines out = .error e := by
  rw [statements, Report.result_andThen, Report.mapError]
  cases (ofSource fs [] source).report.result with
  | error other => simp [Except.mapError, Except.bind]
  | ok out => cases h : Statement.ofLines out <;> simp [Except.mapError, Except.bind, h]

/-- A parse error has the number of the line that is at fault: it is no directive,
    the token is there once the defined names are replaced, and the lines before it
    are read. -/
structure ErrorLine (fs : FileSystem) (lines : List Line) (e : ParseError) : Prop where
  here : ∃ line, lines[e.line]? = some line ∧
    line.tokens.head? ≠ some SourceLine.includeDirective ∧
    line.tokens.head? ≠ some SourceLine.defineDirective ∧
    LineFault ((definitionsBefore fs [] lines e.line).substitute line.tokens) e.fault ∧
    e.fault.token ∈ (definitionsBefore fs [] lines e.line).substitute line.tokens
  before : ∀ j < e.line, ∀ line, lines[j]? = some line → ∃ statements,
    Statement.ofTokens (given (definitionsBefore fs [] lines j) line) = .ok statements

theorem included?_eq_none_iff {line : Line} :
    included? line = none ↔ line.tokens.head? ≠ some SourceLine.includeDirective := by
  simp [included?]

/-- Before the first inclusion, each line gives the line of its own number. -/
theorem Expansion.Layout.getElem?_of_forall {fs : FileSystem} {definitions : Definitions}
    {lines : List Line} {blocks : List (List (List String))}
    (h : Layout fs definitions lines blocks) {i : Nat} {line : Line}
    (hl : lines[i]? = some line) (hi : ∀ other ∈ lines.take (i + 1), included? other = none) :
    blocks.flatten[i]? = some (given (definitionsBefore fs definitions lines i) line) := by
  have hmem : line ∈ lines.take (i + 1) :=
    List.mem_of_getElem? (by rwa [List.getElem?_take_of_lt (Nat.lt_succ_self i)])
  have hbefore : ∀ other ∈ lines.take i, included? other = none :=
    fun other ho => hi other (List.take_subset_take_left lines (Nat.le_succ i) ho)
  obtain ⟨index, hindex, hgiven⟩ := h.exists_index hl (hi line hmem)
  rw [shiftedNumber_of_forall hbefore] at hindex
  obtain rfl : index = i := by omega
  exact hgiven

theorem errorLine_of_layout {fs : FileSystem} {lines : List Line}
    {blocks : List (List (List String))} (h : Layout fs [] lines blocks) {e : ParseError}
    (he : Statement.ofLines blocks.flatten = .error e)
    (hi : ∀ line ∈ lines.take (e.line + 1), included? line = none) : ErrorLine fs lines e := by
  rw [Statement.ofLines, Statement.ofLinesFrom_eq_error_iff] at he
  obtain ⟨place, tokens, hfirst, hfault, hplace⟩ := he
  obtain rfl : e.line = place := by omega
  -- without inclusions there are no more lines after expansion than before
  have hlt : e.line < lines.length := by
    by_contra hle
    have hlength := h.index_eq le_rfl
    rw [← h.length_eq, List.take_length, h.length_eq, shiftedNumber_of_forall] at hlength
    · obtain ⟨hin, -⟩ := List.getElem?_eq_some_iff.1 hfirst.here
      omega
    · exact fun line hline => hi line
        (List.take_subset_take_left lines (by omega) hline)
  have hline : lines[e.line]? = some lines[e.line] := List.getElem?_eq_getElem hlt
  have hgiven := h.getElem?_of_forall hline hi
  rw [hfirst.here, Option.some.injEq] at hgiven
  refine ⟨⟨lines[e.line], hline, ?_⟩, ?_⟩
  · have hinclude : included? lines[e.line] = none :=
      hi _ (List.mem_of_getElem? (by rwa [List.getElem?_take_of_lt (Nat.lt_succ_self _)]))
    -- a definition gives an empty line, and there is no fault in it
    have hdefine : lines[e.line].tokens.head? ≠ some SourceLine.defineDirective := by
      intro hd
      rw [hgiven, given, if_pos hd] at hfault
      exact not_lineFault_nil hfault
    rw [hgiven, given, if_neg hdefine] at hfault
    exact ⟨included?_eq_none_iff.1 hinclude, hdefine, hfault, hfault.token_mem⟩
  · intro j hj line hl
    have hother := h.getElem?_of_forall hl fun other ho =>
      hi other (List.take_subset_take_left lines (by omega) ho)
    have hmem : given (definitionsBefore fs [] lines j) line ∈ blocks.flatten.take e.line :=
      List.mem_of_getElem? (by rwa [List.getElem?_take_of_lt hj])
    exact Statement.acceptsLine_iff.1 (not_not.1 (hfirst.before _ hmem))

/-- **Lines are found at their shifted numbers.**  An expansion is made up of what
    the lines of its source give.  A line without inclusion gives one line, at its
    number plus `count - 1` for each inclusion of `count` lines before it.  So a
    parse error before the first inclusion has the number of its line in the
    source. -/
theorem lines_numbered (fs : FileSystem) (source : String) :
    (∀ definitions out, (ofSource fs definitions source).report.result = .ok out →
      ∃ blocks, Layout fs definitions (Text.lines source.toList) blocks ∧ blocks.flatten = out ∧
        ∀ (i : Nat) line, (Text.lines source.toList)[i]? = some line → included? line = none →
          ∃ index : Nat,
            (index : Int) = shiftedNumber (Text.lines source.toList)
              (fun j => (blocks[j]?.getD []).length) i ∧
            out[index]? = some
              (given (definitionsBefore fs definitions (Text.lines source.toList) i) line)) ∧
      ∀ e, (Source.statements fs source).result = .error (.parse e) →
        (∀ line ∈ (Text.lines source.toList).take (e.line + 1), included? line = none) →
          ErrorLine fs (Text.lines source.toList) e := by
  constructor
  · intro definitions out h
    obtain ⟨blocks, hblocks, rfl⟩ := exists_layout h
    exact ⟨blocks, hblocks, rfl, fun i line hl hi => hblocks.exists_index hl hi⟩
  · intro e he hi
    obtain ⟨out, hout, he⟩ := Source.statements_eq_parse_iff.1 he
    obtain ⟨blocks, hblocks, rfl⟩ := exists_layout hout
    exact errorLine_of_layout hblocks he hi

/-- A file without lines, and one that includes it and has four other lines. -/
def nestedFiles : FileSystem :=
  .ofTable [("empty", .ok ""), ("four", .ok "inc ax\n%include empty\n\ninc bx, two\n\n")]

/-- The last line is shifted from three to five.  An error has the number of its
    line before the first inclusion, but not after it. -/
example :
    (ofSource nestedFiles [] "%define two 2\n%include four\n%include empty\ndec cx").report.result =
      .ok [[], ["inc", "ax"], [], ["inc", "bx", "2"], [], ["dec", "cx"]] ∧
    (Source.statements nestedFiles "%define two 2-\n\ninc bx, two\n%include four").result =
      .error (.parse ⟨2, .invalidToken "2-"⟩) ∧
    (Source.statements nestedFiles "%include empty\ninc bx, 2-").result =
      .error (.parse ⟨0, .invalidToken "2-"⟩) := by
  decide

end RegisterMachine
