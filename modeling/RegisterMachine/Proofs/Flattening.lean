/-
  Expansion as two passes: inclusions first, definitions afterwards.

  Inclusions do not depend on definitions, because directives are recognised in
  the text as it is written.  So a text can be flattened on its own, into the
  lines of all its files in document order; the definitions are then carried out
  line by line.

  * `FlattensLines fs opened lines flat`: what lines come to when each inclusion
    is replaced by the lines of its file.  The first inclusion that fails ends
    it, with its error;
  * `Flat.pass` carries out the definitions of flat lines on a table;
  * `ofSource_eq_pass`: the expansion of a source is the second pass over the
    first.
-/
import RegisterMachine.Expansion.Depth
import Mathlib.Tactic

namespace RegisterMachine

/-! ## Flattening -/

/-- Lines without inclusions, and the error of the inclusion that ends them, if
    there is one. -/
@[ext]
structure Flat where
  lines : List Line
  stop : Option ExpansionError

namespace Flat

/-- No line. -/
def empty : Flat :=
  ⟨[], none⟩

/-- One more line, before others. -/
def cons (line : Line) (later : Flat) : Flat :=
  ⟨line :: later.lines, later.stop⟩

/-- An inclusion that fails. -/
def failed (e : ExpansionError) : Flat :=
  ⟨[], some e⟩

/-- Flat lines after others.  Nothing comes after an error. -/
def append (first later : Flat) : Flat :=
  match first.stop with
  | none => ⟨first.lines ++ later.lines, later.stop⟩
  | some _ => first

end Flat

/-- The file that a line includes, if its first token is the directive. -/
def included? (line : Line) : Option String :=
  if line.tokens.head? = some SourceLine.includeDirective then
    some (SourceLine.argument line SourceLine.includeDirective.length)
  else none

mutual

/-- What the inclusion of a file comes to while other files are being
    included. -/
inductive FlattensFile (fs : FileSystem) : List String → String → Flat → Prop where
  | unnamed {opened : List String} : FlattensFile fs opened "" (.failed .emptyInclude)
  | recursive {opened : List String} {name : String} : name ≠ "" → name ∈ opened →
      FlattensFile fs opened name (.failed (.recursiveInclude name))
  | unreadable {opened : List String} {name : String} {cause : ReadError} : name ≠ "" →
      name ∉ opened → fs.read name = .error cause →
      FlattensFile fs opened name (.failed (.failedInclude name cause))
  | readable {opened : List String} {name text : String} {flat : Flat} : name ≠ "" →
      name ∉ opened → fs.read name = .ok text →
      FlattensLines fs (name :: opened) (Text.lines text.toList) flat →
      FlattensFile fs opened name flat

/-- What lines come to when inclusions are replaced by the lines of their
    files. -/
inductive FlattensLines (fs : FileSystem) : List String → List Line → Flat → Prop where
  | nil {opened : List String} : FlattensLines fs opened [] .empty
  | line {opened : List String} {line : Line} {rest : List Line} {later : Flat} :
      included? line = none → FlattensLines fs opened rest later →
      FlattensLines fs opened (line :: rest) (.cons line later)
  | inclusion {opened : List String} {line : Line} {rest : List Line} {name : String}
      {file later : Flat} : included? line = some name → FlattensFile fs opened name file →
      FlattensLines fs opened rest later →
      FlattensLines fs opened (line :: rest) (.append file later)

end

mutual

theorem FlattensFile.unique {fs : FileSystem} : ∀ {opened : List String} {name : String}
    {flat : Flat}, FlattensFile fs opened name flat →
      ∀ flat', FlattensFile fs opened name flat' → flat = flat'
  | _, _, _, .unnamed, _, h => by
    cases h with
    | unnamed => rfl
    | recursive hn | unreadable hn | readable hn => exact absurd rfl hn
  | _, _, _, .recursive hn ho, _, h => by
    cases h with
    | unnamed => exact absurd rfl hn
    | recursive => rfl
    | unreadable _ ho' | readable _ ho' => exact absurd ho ho'
  | _, _, _, .unreadable hn ho hr, _, h => by
    cases h with
    | unnamed => exact absurd rfl hn
    | recursive _ ho' => exact absurd ho' ho
    | unreadable _ _ hr' =>
      cases hr.symm.trans hr'
      rfl
    | readable _ _ hr' => cases hr.symm.trans hr'
  | _, _, _, .readable hn ho hr hl, _, h => by
    have ih := hl.unique
    cases h with
    | unnamed => exact absurd rfl hn
    | recursive _ ho' => exact absurd ho' ho
    | unreadable _ _ hr' => cases hr.symm.trans hr'
    | readable _ _ hr' hl' =>
      cases hr.symm.trans hr'
      exact ih _ hl'

theorem FlattensLines.unique {fs : FileSystem} : ∀ {opened : List String} {lines : List Line}
    {flat : Flat}, FlattensLines fs opened lines flat →
      ∀ flat', FlattensLines fs opened lines flat' → flat = flat'
  | _, _, _, .nil, _, h => by
    cases h
    rfl
  | _, _, _, .line hi hl, _, h => by
    have ih := hl.unique
    cases h with
    | line _ hl' => rw [ih _ hl']
    | inclusion hi' => cases hi.symm.trans hi'
  | _, _, _, .inclusion hi hf hl, _, h => by
    have ihf := hf.unique
    have ihl := hl.unique
    cases h with
    | line hi' => cases hi.symm.trans hi'
    | inclusion hi' hf' hl' =>
      cases hi.symm.trans hi'
      rw [ihf _ hf', ihl _ hl']

end

/-! ## Definitions on flat lines -/

/-- The value of each defined name. -/
abbrev Table := String → Option (List String)

/-- The table after lines, and what they give. -/
structure Pass where
  table : Table
  result : Except ExpansionError (List (List String))

namespace Pass

/-- Goes on with the table of a pass, unless it failed. -/
def andThen (pass : Pass) (next : Table → Pass) : Pass :=
  match pass.result with
  | .error _ => pass
  | .ok lines => ⟨(next pass.table).table, (next pass.table).result.map (lines ++ ·)⟩

@[simp] theorem andThen_error (table : Table) (e : ExpansionError) (next : Table → Pass) :
    andThen ⟨table, .error e⟩ next = ⟨table, .error e⟩ := rfl

@[simp] theorem andThen_ok (table : Table) (lines : List (List String)) (next : Table → Pass) :
    andThen ⟨table, .ok lines⟩ next =
      ⟨(next table).table, (next table).result.map (lines ++ ·)⟩ := rfl

theorem andThen_ok_nil (table : Table) (next : Table → Pass) :
    andThen ⟨table, .ok []⟩ next = next table := by
  rw [andThen_ok]
  rcases next table with ⟨table', e | lines⟩ <;> rfl

theorem andThen_assoc (pass : Pass) (next later : Table → Pass) :
    (pass.andThen next).andThen later = pass.andThen fun table => (next table).andThen later := by
  rcases pass with ⟨table, e | lines⟩
  · rfl
  · rcases h : next table with ⟨table', e | lines'⟩
    · simp [h, Except.map]
    · cases hl : (later table').result <;> simp [h, hl, Except.map]

end Pass

namespace Table

/-- Replaces each token that is defined by its value. -/
def substitute (table : Table) (tokens : List String) : List String :=
  tokens.flatMap fun token => (table token).getD [token]

/-- Carries out the definition of the tokens after its directive. -/
def define (table : Table) : List String → Pass
  | [] => ⟨table, .error .emptyDefine⟩
  | [name] => ⟨table, .error (.defineWithoutValue name)⟩
  | name :: value =>
    match table name with
    | some old => ⟨table, .error (.duplicateDefine name old (table.substitute value))⟩
    | none => ⟨Function.update table name (some (table.substitute value)), .ok [[]]⟩

/-- Carries out a line without inclusion. -/
def line (table : Table) (line : Line) : Pass :=
  if line.tokens.head? = some SourceLine.defineDirective then table.define line.tokens.tail
  else ⟨table, .ok [table.substitute line.tokens]⟩

/-- Carries out lines, up to the error that ends them. -/
def lines (stop : Option ExpansionError) : List Line → Table → Pass
  | [], table =>
    match stop with
    | none => ⟨table, .ok []⟩
    | some e => ⟨table, .error e⟩
  | line :: rest, table => (table.line line).andThen (lines stop rest)

end Table

/-- Carries out the definitions of flat lines. -/
def Flat.pass (flat : Flat) (table : Table) : Pass :=
  Table.lines flat.stop flat.lines table

theorem Table.lines_append (stop : Option ExpansionError) (first later : List Line)
    (table : Table) :
    lines stop (first ++ later) table = (lines none first table).andThen (lines stop later) := by
  induction first generalizing table with
  | nil => exact (Pass.andThen_ok_nil table _).symm
  | cons line rest ih =>
    have hr : lines stop (rest ++ later) =
        fun table => (lines none rest table).andThen (lines stop later) := funext ih
    rw [List.cons_append, lines, hr, lines, Pass.andThen_assoc]

theorem Table.exists_lines_error (e : ExpansionError) (ls : List Line) (table : Table) :
    ∃ e', (lines (some e) ls table).result = .error e' := by
  induction ls generalizing table with
  | nil => exact ⟨e, rfl⟩
  | cons line rest ih =>
    rw [lines]
    rcases table.line line with ⟨table', e' | before⟩
    · exact ⟨e', rfl⟩
    · obtain ⟨e', he⟩ := ih table'
      exact ⟨e', by rw [Pass.andThen_ok, he]; rfl⟩

theorem Flat.pass_append (first later : Flat) (table : Table) :
    (first.append later).pass table = (first.pass table).andThen later.pass := by
  obtain ⟨ls, _ | e⟩ := first
  · exact Table.lines_append later.stop ls later.lines table
  · obtain ⟨e', he⟩ := Table.exists_lines_error e ls table
    unfold Pass.andThen
    rw [show (Flat.pass ⟨ls, some e⟩ table).result = .error e' from he]
    rfl

/-! ## The two passes -/

theorem ofLine_eq_inclusion_iff {line : Line} {name : String} :
    SourceLine.ofLine line = .inclusion name ↔ included? line = some name := by
  unfold SourceLine.ofLine included?
  cases line.tokens with
  | nil => simp
  | cons token rest =>
    by_cases hd : token = SourceLine.defineDirective
    · subst hd
      simp [SourceLine.defineDirective, SourceLine.includeDirective]
    · by_cases hi : token = SourceLine.includeDirective
      · subst hi
        simp [hd]
      · simp [hd, hi]

namespace Expansion

/-- An expansion does the same as a pass. -/
structure Matches (expansion : Expansion) (pass : Pass) : Prop where
  table : expansion.definitions.value? = pass.table
  result : expansion.report.result = pass.result

theorem Matches.andThen {expansion : Expansion} {pass : Pass} {next : Definitions → Expansion}
    {next' : Table → Pass} (h : Matches expansion pass)
    (hn : ∀ definitions, Matches (next definitions) (next' definitions.value?)) :
    Matches (expansion.andThen next) (pass.andThen next') := by
  obtain ⟨table, result⟩ := pass
  obtain ⟨rfl, rfl⟩ := h
  unfold Expansion.andThen
  cases hr : expansion.report.result with
  | error e => exact ⟨rfl, hr⟩
  | ok lines =>
    obtain ⟨ht, hn⟩ := hn expansion.definitions
    exact ⟨ht, congrArg (Except.map (lines ++ ·)) hn⟩

theorem value?_cons (name : String) (value : List String) (definitions : Definitions) :
    Definitions.value? ((name, value) :: definitions) =
      Function.update definitions.value? name (some value) := by
  funext other
  unfold Definitions.value?
  rw [List.lookup_cons, Function.update_apply]
  by_cases h : other = name
  · simp [h]
  · simp [h, beq_eq_false_iff_ne.2 h]

theorem matches_definition (inclusion : String → Definitions → Expansion)
    (definitions : Definitions) (words : List String) :
    Matches (ofLine inclusion definitions (.definition words))
      (Table.define definitions.value? words) := by
  rcases words with _ | ⟨name, _ | ⟨word, words⟩⟩
  · exact ⟨rfl, rfl⟩
  · exact ⟨rfl, rfl⟩
  · simp only [ofLine, Definitions.entry, Table.define]
    cases definitions.value? name with
    | some old => exact ⟨rfl, rfl⟩
    | none => exact ⟨value?_cons name _ definitions, rfl⟩

theorem matches_line {line : Line} (h : included? line = none)
    (inclusion : String → Definitions → Expansion) (definitions : Definitions) :
    Matches (ofLine inclusion definitions (SourceLine.ofLine line))
      (Table.line definitions.value? line) := by
  unfold included? at h
  unfold SourceLine.ofLine Table.line
  cases ht : line.tokens with
  | nil => exact ⟨rfl, rfl⟩
  | cons token rest =>
    rw [ht] at h
    by_cases hd : token = SourceLine.defineDirective
    · simp only [hd, List.head?_cons, List.tail_cons, if_true]
      exact matches_definition inclusion definitions rest
    · have hi : token ≠ SourceLine.includeDirective := by
        rintro rfl
        simp at h
      simp only [hd, hi, List.head?_cons, Option.some.injEq, if_false]
      exact ⟨rfl, rfl⟩

/-- What expands an inclusion is a pass over what the file flattens to. -/
def FactorsFile (fs : FileSystem) (opened : List String) (name : String)
    (expand : Definitions → Expansion) : Prop :=
  ∃ flat, FlattensFile fs opened name flat ∧
    ∀ definitions, Matches (expand definitions) (flat.pass definitions.value?)

/-- What expands lines is a pass over what they flatten to. -/
def FactorsLines (fs : FileSystem) (opened : List String) (lines : List Line)
    (expand : Definitions → Expansion) : Prop :=
  ∃ flat, FlattensLines fs opened lines flat ∧
    ∀ definitions, Matches (expand definitions) (flat.pass definitions.value?)

section
variable {fs : FileSystem} {opened : List String}

/-- Lines factor, if their inclusions do. -/
theorem factorsLines {lines : List Line} {inclusion : String → Definitions → Expansion}
    (h : ∀ name, .inclusion name ∈ lines.map SourceLine.ofLine →
      FactorsFile fs opened name (inclusion name)) :
    FactorsLines fs opened lines fun definitions =>
      ofLines inclusion definitions (lines.map SourceLine.ofLine) := by
  induction lines with
  | nil => exact ⟨.empty, .nil, fun _ => ⟨rfl, rfl⟩⟩
  | cons line rest ih =>
    obtain ⟨later, hl, hm⟩ := ih fun name hn => h name (List.mem_cons_of_mem _ hn)
    cases hi : included? line with
    | none =>
      refine ⟨.cons line later, .line hi hl, fun definitions => ?_⟩
      exact (matches_line hi inclusion definitions).andThen hm
    | some name =>
      have ho := ofLine_eq_inclusion_iff.2 hi
      obtain ⟨file, hf, hfm⟩ := h name (by rw [List.map_cons, ho]; exact List.mem_cons_self)
      refine ⟨.append file later, .inclusion hi hf hl, fun definitions => ?_⟩
      rw [List.map_cons, ho, Flat.pass_append]
      exact (hfm definitions).andThen hm

/-- The inclusion of a file factors, if those in it do. -/
theorem factorsFile_succ {d : Nat} {name : String}
    (h : name ∉ opened → ∀ file ∈ includedFiles fs,
      FactorsFile fs (name :: opened) file (ofFile fs d (name :: opened) file)) :
    FactorsFile fs opened name (ofFile fs (d + 1) opened name) := by
  by_cases hn : name = ""
  · subst hn
    exact ⟨_, .unnamed, fun _ => ⟨rfl, rfl⟩⟩
  by_cases ho : name ∈ opened
  · refine ⟨_, .recursive hn ho, fun definitions => ?_⟩
    rw [ofFile, if_neg hn, if_pos ho]
    exact ⟨rfl, rfl⟩
  cases hr : fs.read name with
  | error cause =>
    refine ⟨_, .unreadable hn ho hr, fun definitions => ?_⟩
    rw [ofFile, if_neg hn, if_neg ho, hr]
    exact ⟨rfl, rfl⟩
  | ok text =>
    have hf : FactorsLines fs (name :: opened) (Text.lines text.toList) fun definitions =>
        ofLines (ofFile fs d (name :: opened)) definitions (SourceLine.ofText text) :=
      factorsLines fun file hi => h ho file (mem_includedFiles (fs.mem_contents hr) hi)
    obtain ⟨flat, hf, hm⟩ := hf
    refine ⟨flat, .readable hn ho hr hf, fun definitions => ?_⟩
    rw [ofFile, if_neg hn, if_neg ho, hr]
    exact ⟨(hm definitions).table, (hm definitions).result⟩

/-- The induction is on the number of inclusions that may still be opened. -/
theorem factorsFile {d : Nat} {name : String} (hn : name ∈ includedFiles fs)
    (hd : (unopened fs opened).length ≤ d) :
    FactorsFile fs opened name (ofFile fs d opened name) := by
  induction d generalizing opened name with
  | zero =>
    have ho := mem_opened_of_unopened hn hd
    by_cases he : name = ""
    · subst he
      exact ⟨_, .unnamed, fun _ => ⟨rfl, rfl⟩⟩
    · refine ⟨_, .recursive he ho, fun definitions => ?_⟩
      rw [ofFile, if_neg he]
      exact ⟨rfl, rfl⟩
  | succ d ih =>
    refine factorsFile_succ fun ho file hf => ih hf ?_
    have hlt := length_unopened_cons_lt hn ho
    omega

end

theorem factorsLines_depth (fs : FileSystem) (lines : List Line) :
    FactorsLines fs [] lines fun definitions =>
      ofLines (ofFile fs (depth fs) []) definitions (lines.map SourceLine.ofLine) := by
  refine factorsLines fun name _ => factorsFile_succ fun _ file hf => factorsFile hf ?_
  exact List.length_filter_le _ _

theorem factorsLines_ofSource (fs : FileSystem) (source : String) :
    FactorsLines fs [] (Text.lines source.toList) fun definitions =>
      ofSource fs definitions source :=
  factorsLines_depth fs (Text.lines source.toList)

/-- **Expansion is flattening, and then one pass of the definitions.**  In every
    file system, each source flattens to one sequence of lines; its expansion
    gives the lines or the error of the pass over that, and leaves the same
    definitions. -/
theorem ofSource_eq_pass (fs : FileSystem) (definitions : Definitions) (source : String) :
    ∃ flat, FlattensLines fs [] (Text.lines source.toList) flat ∧
      (∀ flat', FlattensLines fs [] (Text.lines source.toList) flat' → flat' = flat) ∧
      (ofSource fs definitions source).report.result = (flat.pass definitions.value?).result ∧
      (ofSource fs definitions source).definitions.value? =
        (flat.pass definitions.value?).table := by
  obtain ⟨flat, hf, hm⟩ := factorsLines_ofSource fs source
  refine ⟨flat, hf, fun flat' hf' => hf'.unique _ hf, ?_, ?_⟩
  · exact (hm definitions).result
  · exact (hm definitions).table

end Expansion

end RegisterMachine
