/-
  Line endings.

  Whether a line ends with `\n` or with `\r\n` makes no difference.  A carriage
  return at the end of a line separates tokens, stands in the comment, or is
  trimmed off the name of a file, so it is never seen.

  * `Text.withReturns` puts a carriage return before each line feed of a text,
    `FileSystem.withReturns` does so in some of the files;
  * `ofLine_eq`: a blank separator at the end of a line changes nothing;
  * `ofText_dropReturns`: nor does it matter whether a line feed takes the
    carriage return before it along;
  * `FileSystem.Alike`: files with the same source lines.  `process_congr`,
    `statements_congr` and `run_congr`: nothing else of a file matters;
  * `line_endings_irrelevant`: a source comes to the same with either ending.
-/
import RegisterMachine.Proofs.Reuse
import RegisterMachine.Proofs.Tokens
import RegisterMachine.Source

namespace RegisterMachine

/-! ## Carriage returns before line feeds -/

namespace Text

/-- `\r\n` for each `\n`. -/
def addReturns (text : List Char) : List Char :=
  text.flatMap fun c => if c = '\n' then ['\r', '\n'] else [c]

/-- `\n` for each `\r\n`. -/
def dropReturns : List Char → List Char
  | '\r' :: '\n' :: rest => '\n' :: dropReturns rest
  | c :: rest => c :: dropReturns rest
  | [] => []

def withReturns (text : String) : String :=
  String.ofList (addReturns text.toList)

theorem addReturns_newline (rest : List Char) :
    addReturns ('\n' :: rest) = '\r' :: '\n' :: addReturns rest := rfl

theorem addReturns_cons {c : Char} (hc : c ≠ '\n') (rest : List Char) :
    addReturns (c :: rest) = c :: addReturns rest := by
  rw [addReturns, List.flatMap_cons, if_neg hc]
  rfl

theorem addReturns_ne_newline_cons (text rest : List Char) : addReturns text ≠ '\n' :: rest := by
  cases text with
  | nil => nofun
  | cons c text =>
    by_cases hc : c = '\n'
    · rw [hc, addReturns_newline]
      nofun
    · rw [addReturns_cons hc]
      exact fun h => hc (List.cons.inj h).1

theorem dropReturns_cons {c : Char} {text : List Char} (h : ∀ rest, text ≠ '\n' :: rest) :
    dropReturns (c :: text) = c :: dropReturns text := by
  rw [dropReturns]
  rintro rest - rfl
  exact h rest rfl

/-- The carriage returns that are added are those that are dropped; the ones
    that were there before stay. -/
theorem dropReturns_addReturns (text : List Char) : dropReturns (addReturns text) = text := by
  induction text with
  | nil => rfl
  | cons c text ih =>
    by_cases hc : c = '\n'
    · rw [hc, addReturns_newline, dropReturns, ih]
    · rw [addReturns_cons hc, dropReturns_cons (addReturns_ne_newline_cons text), ih]

example : addReturns ['#', '\r', '\n'] = ['#', '\r', '\r', '\n'] := by decide

end Text

/-! ## The end of a line -/

/-- `long` is `text`, or `text` with one more character at its end. -/
def UpToEnd (c : Char) (text long : List Char) : Prop :=
  long = text ∨ long = text ++ [c]

namespace UpToEnd

variable {c : Char} {text long : List Char}

theorem refl (c : Char) (text : List Char) : UpToEnd c text text :=
  Or.inl rfl

theorem cons (h : UpToEnd c text long) (first : Char) :
    UpToEnd c (first :: text) (first :: long) := by
  rcases h with rfl | rfl
  · exact refl c _
  · exact Or.inr rfl

theorem dropWhile (h : UpToEnd c text long) {p : Char → Bool} (hc : p c = true) :
    UpToEnd c (text.dropWhile p) (long.dropWhile p) := by
  rcases h with rfl | rfl
  · exact refl c _
  · rw [List.dropWhile_append]
    split_ifs with he
    · rw [List.isEmpty_iff.1 he, List.dropWhile_cons_of_pos hc]
      exact refl c _
    · exact Or.inr rfl

theorem drop (h : UpToEnd c text long) (n : Nat) : UpToEnd c (text.drop n) (long.drop n) := by
  rcases h with rfl | rfl
  · exact refl c _
  · rw [List.drop_append]
    cases n - text.length with
    | zero => exact Or.inr rfl
    | succ k =>
      rw [List.drop_succ_cons, List.drop_nil, List.append_nil]
      exact refl c _

/-- A blank at the end is trimmed off. -/
theorem trim_eq (h : UpToEnd c text long) (hb : Text.isBlank c = true) :
    Text.trim long = Text.trim text := by
  rcases h.dropWhile hb with hd | hd
  · rw [Text.trim, hd, Text.trim]
  · rw [Text.trim, hd, List.reverse_append, List.reverse_singleton, List.singleton_append,
      List.dropWhile_cons_of_pos hb, Text.trim]

/-- The character is in the comment, or ends the code. -/
theorem code (h : UpToEnd c text long) (hs : isSeparator c = true) :
    UpToEnd c (Line.code text) (Line.code long) := by
  rcases h with rfl | rfl
  · exact refl c _
  by_cases hh : '#' ∈ text
  · obtain ⟨front, comment, rfl, hf⟩ := List.eq_append_cons_of_mem hh
    rw [List.append_assoc, Line.code_append hf, Line.code_append hf]
    exact refl c _
  · rw [Line.code_append hh, Line.code_separator hs, Line.code_eq_self hh]
    exact Or.inr rfl

theorem tokens_eq (h : UpToEnd c text long) (hs : isSeparator c = true) :
    Line.tokens long = Line.tokens text := by
  rcases h.code hs with hc | hc
  · rw [Line.tokens, hc, Line.tokens]
  · rw [Line.tokens, hc, List.splitOnP_append_cons _ _ hs, List.splitOnP_nil, List.filter_append,
      Line.tokens]
    simp

theorem argument_eq (h : UpToEnd c text long) (hs : isSeparator c = true)
    (hb : Text.isBlank c = true) (length : Nat) :
    SourceLine.argument long length = SourceLine.argument text length := by
  rw [SourceLine.argument, SourceLine.argument,
    (((h.code hs).dropWhile hs).drop length).trim_eq hb]

/-- **A blank separator at the end of a line changes nothing.** -/
theorem ofLine_eq (h : UpToEnd c text long) (hs : isSeparator c = true)
    (hb : Text.isBlank c = true) : SourceLine.ofLine long = SourceLine.ofLine text := by
  rw [SourceLine.ofLine, SourceLine.ofLine, h.tokens_eq hs, h.argument_eq hs hb]

end UpToEnd

/-! ## Texts -/

/-- The lines are the same, up to carriage returns at their ends. -/
theorem Text.forall₂_lines_dropReturns (text : List Char) :
    List.Forall₂ (UpToEnd '\r') (lines (dropReturns text)) (lines text) := by
  induction text using dropReturns.induct with
  | case1 rest ih =>
    rw [dropReturns, lines_newline, lines_cons (by decide), lines_newline]
    exact .cons (Or.inr rfl) ih
  | case2 c rest h ih =>
    have hdrop : dropReturns (c :: rest) = c :: dropReturns rest := by
      rw [dropReturns]
      exact h
    rw [hdrop]
    by_cases hc : c = '\n'
    · rw [hc, lines_newline, lines_newline]
      exact .cons (.refl _ _) ih
    · -- `c` belongs to the first line on both sides, which may be a new one
      rw [lines_cons hc, lines_cons hc]
      generalize lines (dropReturns rest) = bare, lines rest = whole at ih ⊢
      cases ih with
      | nil => exact .cons (.refl _ _) .nil
      | cons hl ih => exact .cons (hl.cons c) ih
  | case3 => exact .nil

namespace SourceLine

/-- **A line feed may take the carriage return before it along**, or leave it on
    the line. -/
theorem ofText_dropReturns (text : String) :
    (Text.lines (Text.dropReturns text.toList)).map ofLine = ofText text := by
  rw [ofText, ← List.forall₂_eq_eq_eq, List.forall₂_map_left_iff, List.forall₂_map_right_iff]
  exact (Text.forall₂_lines_dropReturns text.toList).imp fun _ _ h => (h.ofLine_eq rfl rfl).symm

theorem ofText_withReturns (text : String) : ofText (Text.withReturns text) = ofText text := by
  rw [← ofText_dropReturns, Text.withReturns, String.toList_ofList, Text.dropReturns_addReturns]
  rfl

end SourceLine

/-! ## Files -/

namespace FileSystem

/-- `\r\n` for each `\n` in the files at the chosen paths. -/
def withReturns (fs : FileSystem) (chosen : String → Bool) : FileSystem where
  read path := if chosen path then (fs.read path).map Text.withReturns else fs.read path
  contents := fs.contents ++ fs.contents.map Text.withReturns
  mem_contents := by
    intro path text h
    split_ifs at h
    · cases hr : fs.read path with
      | error cause => simp [hr, Except.map] at h
      | ok before =>
        rw [hr] at h
        cases h
        exact List.mem_append_right _ (List.mem_map_of_mem (fs.mem_contents hr))
    · exact List.mem_append_left _ (fs.mem_contents h)

/-- Answers with the same source lines, or with the same reason why there are
    none. -/
inductive SameLines : Except ReadError String → Except ReadError String → Prop
  | error (cause : ReadError) : SameLines (.error cause) (.error cause)
  | ok {text text' : String} (h : SourceLine.ofText text = SourceLine.ofText text') :
      SameLines (.ok text) (.ok text')

theorem SameLines.refl (answer : Except ReadError String) : SameLines answer answer := by
  cases answer with
  | error cause => exact .error cause
  | ok text => exact .ok rfl

/-- Each path has the same answer in both, as far as source lines go. -/
def Alike (fs fs' : FileSystem) : Prop :=
  ∀ path, SameLines (fs.read path) (fs'.read path)

theorem alike_withReturns (fs : FileSystem) (chosen : String → Bool) :
    (fs.withReturns chosen).Alike fs := by
  intro path
  dsimp only [withReturns]
  split_ifs
  · cases fs.read path with
    | error cause => exact .error cause
    | ok text => exact .ok (SourceLine.ofText_withReturns text)
  · exact .refl _

/-- The file of a source is found under the same name. -/
theorem Alike.readSource {fs fs' : FileSystem} (h : fs.Alike fs') (path : String) :
    SameLines (fs.readSource path) (fs'.readSource path) := by
  have hread := h path
  unfold FileSystem.readSource
  generalize fs.read path = answer, fs'.read path = answer' at hread ⊢
  cases hread with
  | ok hl => exact .ok hl
  | error cause =>
    cases cause with
    | notFound => exact h (path ++ ".asm")
    | isDirectory | notDirectory | notText | other => exact .refl _

end FileSystem

/-! ## Sources -/

section
variable {fs fs' : FileSystem} (h : fs.Alike fs')
include h

namespace Expansion

theorem ofFile_congr (d : Nat) (opened : List String) :
    ofFile fs d opened = ofFile fs' d opened := by
  induction d generalizing opened with
  | zero => rfl
  | succ d ih =>
    funext name definitions
    have hread := h name
    unfold ofFile
    rw [ih (name :: opened)]
    generalize fs.read name = answer, fs'.read name = answer' at hread ⊢
    cases hread with
    | error cause => rfl
    | ok hl =>
      dsimp only
      rw [hl]

/-- The files may include different numbers of files, but both depths are deep
    enough. -/
theorem ofFile_depth_congr (opened : List String) :
    ofFile fs (depth fs) opened = ofFile fs' (depth fs') opened := by
  funext name
  rw [← ofFile_eq_of_depth_le (le_max_left (depth fs) (depth fs')),
    ← ofFile_eq_of_depth_le (le_max_right (depth fs) (depth fs')), ofFile_congr h]

variable {text text' : String} (ht : SourceLine.ofText text = SourceLine.ofText text')
include ht

theorem ofSource_congr (definitions : Definitions) :
    ofSource fs definitions text = ofSource fs' definitions text' := by
  rw [ofSource, ofSource, ofFile_depth_congr h, ht]

/-- **Source lines are all that matters**, of a source and of the files. -/
theorem Preprocessor.process_congr (p : Preprocessor) :
    p.process fs text = p.process fs' text' := by
  rw [process_eq, process_eq, ofFile_depth_congr h, ht]

end Expansion

namespace Source

variable {text text' : String} (ht : SourceLine.ofText text = SourceLine.ofText text')

include ht in
theorem statements_congr : statements fs text = statements fs' text' := by
  rw [statements, statements, Expansion.ofSource_congr h ht]

include ht in
theorem run_congr (limit : StepLimit) (threshold : Threshold) :
    run fs text limit threshold = run fs' text' limit threshold := by
  rw [run, run, program, program, statements_congr h ht]

theorem runFile_congr (path : String) (limit : StepLimit) (threshold : Threshold) :
    runFile fs path limit threshold = runFile fs' path limit threshold := by
  have hread := h.readSource path
  unfold runFile
  generalize fs.readSource path = answer, fs'.readSource path = answer' at hread ⊢
  cases hread with
  -- `rfl` would compare the two runs first, though none takes place
  | error cause => dsimp only [Report.of, Except.mapError, Report.andThen]
  | ok ht =>
    dsimp only [Report.of, Except.mapError, Report.andThen]
    rw [run_congr h ht]

end Source

end

/-- **Line endings make no difference.**  Let `\r\n` take the place of each `\n`
    in a source and in any of the files.  Then it expands to the same lines, with
    the same definitions, or fails with the same error, whatever was processed
    before.  It is also read as the same statements and runs to the same
    result. -/
theorem line_endings_irrelevant (fs : FileSystem) (chosen : String → Bool) :
    (∀ (p : Expansion.Preprocessor) (source : String),
      p.process (fs.withReturns chosen) (Text.withReturns source) = p.process fs source) ∧
    (∀ source : String,
      Source.statements (fs.withReturns chosen) (Text.withReturns source) =
        Source.statements fs source) ∧
    (∀ (source : String) (limit : StepLimit) (threshold : Threshold),
      Source.run (fs.withReturns chosen) (Text.withReturns source) limit threshold =
        Source.run fs source limit threshold) ∧
    ∀ (path : String) (limit : StepLimit) (threshold : Threshold),
      Source.runFile (fs.withReturns chosen) path limit threshold =
        Source.runFile fs path limit threshold := by
  have hfiles := fs.alike_withReturns chosen
  have hlines := SourceLine.ofText_withReturns
  exact ⟨fun p source => Expansion.Preprocessor.process_congr hfiles (hlines source) p,
    fun source => Source.statements_congr hfiles (hlines source),
    fun source => Source.run_congr hfiles (hlines source),
    Source.runFile_congr hfiles⟩

end RegisterMachine
