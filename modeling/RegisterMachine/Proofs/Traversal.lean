/-
  Expansion step by step, with the stack of the files that are being included.

  A traversal carries out one line at a time.  An inclusion puts its file on the
  stack and goes on with the text of the file; where a text ends, or after an
  error, the file is taken off again and the text before goes on.

  * `Traversal.step` is one step, and `exists_iterate_lines` is what many
    come to: `Expansion.ofLines`, with the stack as it was;
  * `Reads kind t`: the lines that are still to come are of a kind;
  * `Stacked names t`: the stack of a traversal has no name twice, and only some
    `names`.  `Stacked.iterate`: so it stays;
  * `ends_and_rejects_cycles`: every traversal ends, and with the expansion of its
    source.  Only a file that leads back to itself is rejected as recursive.
-/
import RegisterMachine.Proofs.Inclusions
import RegisterMachine.Proofs.Tables

namespace RegisterMachine

namespace Expansion

/-! ## One expansion after another -/

theorem andThen_of_error {expansion : Expansion} {e : ExpansionError}
    (h : expansion.report.result = .error e) (next : Definitions → Expansion) :
    expansion.andThen next = expansion := by
  rw [andThen, h]

theorem ok_nil_andThen (definitions : Definitions) (next : Definitions → Expansion) :
    (ok definitions []).andThen next = next definitions := by
  rcases h : next definitions with ⟨later, events, _ | lines⟩ <;>
    simp [andThen, ok, Report.of, h, Except.map]

theorem andThen_ok_nil (expansion : Expansion) :
    (expansion.andThen fun definitions => ok definitions []) = expansion := by
  obtain ⟨definitions, events, _ | lines⟩ := expansion <;>
    simp [andThen, ok, Report.of, Except.map]

theorem after_andThen (expansion : Expansion) (events : List Event)
    (next : Definitions → Expansion) :
    (expansion.after events).andThen next = (expansion.andThen next).after events := by
  obtain ⟨definitions, before, _ | lines⟩ := expansion <;>
    simp [andThen, after, Report.after]

theorem andThen_assoc (expansion : Expansion) (next later : Definitions → Expansion) :
    (expansion.andThen next).andThen later =
      expansion.andThen fun definitions => (next definitions).andThen later := by
  obtain ⟨definitions, events, _ | lines⟩ := expansion
  · rfl
  · rcases h : next definitions with ⟨definitions', events', _ | lines'⟩
    · simp [andThen, h, Except.map]
    · cases hl : (later definitions').report.result <;>
        simp [andThen, h, hl, Except.map]

/-! ## Traversals -/

/-- An expansion at work. -/
structure Traversal where
  /-- What the lines so far have come to. -/
  done : Expansion
  /-- The files that are being included, the innermost first. -/
  opened : List String
  /-- The rest of the text that is being read. -/
  lines : List SourceLine
  /-- The rest of each text that waits for it to end, the innermost first. -/
  waiting : List (List SourceLine)

namespace Traversal

/-- Nothing is left to read. -/
def Finished (t : Traversal) : Prop :=
  t.lines = [] ∧ t.waiting = []

instance : DecidablePred Finished := fun t =>
  inferInstanceAs (Decidable (t.lines = [] ∧ t.waiting = []))

def andThen (t : Traversal) (next : Definitions → Expansion) : Traversal :=
  { t with done := t.done.andThen next }

/-- Puts a file on the stack and goes on with its text, or fails. -/
def openFile (fs : FileSystem) (t : Traversal) (name : String) : Traversal :=
  if name = "" then t.andThen (error · .emptyInclude)
  else if name ∈ t.opened then t.andThen (error · (.recursiveInclude name))
  else match fs.read name with
    | .error cause =>
      t.andThen fun definitions =>
        (error definitions (.failedInclude name cause)).after [.including name]
    | .ok text =>
      { done := t.done.andThen fun definitions => (ok definitions []).after [.including name]
        opened := name :: t.opened
        lines := SourceLine.ofText text
        waiting := t.lines :: t.waiting }

/-- Carries out a line. -/
def perform (fs : FileSystem) (t : Traversal) : SourceLine → Traversal
  | .code tokens => t.andThen fun definitions => ok definitions [definitions.substitute tokens]
  | .inclusion name => t.openFile fs name
  | .definition words =>
    t.andThen fun definitions =>
      match definitions.entry words with
      | .error e => error definitions e
      | .ok (name, value) => (ok ((name, value) :: definitions) [[]]).after [.defined name value]

/-- Carries out the next line, or leaves a text that has none.  After an error
    no line is carried out. -/
def step (fs : FileSystem) (t : Traversal) : Traversal :=
  match t.lines, t.waiting with
  | line :: rest, _ =>
    match t.done.report.result with
    | .ok _ => perform fs { t with lines := rest } line
    | .error _ => { t with lines := [] }
  | [], rest :: waiting =>
    { t with opened := t.opened.tail, lines := rest, waiting := waiting }
  | [], [] => t

theorem step_of_finished {fs : FileSystem} {t : Traversal} (h : t.Finished) : t.step fs = t := by
  rw [step, h.1, h.2]

section
variable {fs : FileSystem} {done : Expansion} {opened : List String} {rest : List SourceLine}
  {waiting : List (List SourceLine)}

theorem step_of_error {e : ExpansionError} (h : done.report.result = .error e) (line : SourceLine) :
    step fs ⟨done, opened, line :: rest, waiting⟩ = ⟨done, opened, [], waiting⟩ := by
  simp only [step, h]

theorem step_of_ok {out : List (List String)} (h : done.report.result = .ok out)
    (line : SourceLine) :
    step fs ⟨done, opened, line :: rest, waiting⟩ =
      perform fs ⟨done, opened, rest, waiting⟩ line := by
  simp only [step, h]

theorem step_nil {name : String} :
    step fs ⟨done, name :: opened, [], rest :: waiting⟩ = ⟨done, opened, rest, waiting⟩ := rfl

end

/-! ## What a text comes to -/

/-- Steps carry out the inclusion of a file, and leave the stack as it was. -/
def Performs (fs : FileSystem) (opened : List String) (name : String)
    (expand : Definitions → Expansion) : Prop :=
  ∀ done lines waiting, ∃ n, (step fs)^[n] (openFile fs ⟨done, opened, lines, waiting⟩ name) =
    ⟨done.andThen expand, opened, lines, waiting⟩

section
variable {fs : FileSystem} {opened : List String}

theorem exists_iterate_perform {inclusion : String → Definitions → Expansion} {line : SourceLine}
    (h : ∀ name, line = .inclusion name → Performs fs opened name (inclusion name))
    (done : Expansion) (rest : List SourceLine) (waiting : List (List SourceLine)) :
    ∃ n, (step fs)^[n] (perform fs ⟨done, opened, rest, waiting⟩ line) =
      ⟨done.andThen (ofLine inclusion · line), opened, rest, waiting⟩ := by
  cases line with
  | code | definition => exact ⟨0, rfl⟩
  | inclusion name => exact h name rfl done rest waiting

/-- Steps carry out lines, if they carry out the inclusions among them. -/
theorem exists_iterate_lines {inclusion : String → Definitions → Expansion}
    {lines : List SourceLine}
    (h : ∀ name, .inclusion name ∈ lines → Performs fs opened name (inclusion name))
    (done : Expansion) (waiting : List (List SourceLine)) :
    ∃ n, (step fs)^[n] ⟨done, opened, lines, waiting⟩ =
      ⟨done.andThen (ofLines inclusion · lines), opened, [], waiting⟩ := by
  induction lines generalizing done with
  | nil => exact ⟨0, by simp only [ofLines, andThen_ok_nil, Function.iterate_zero, id]⟩
  | cons line rest ih =>
    cases hd : done.report.result with
    | error e => exact ⟨1, by rw [andThen_of_error hd, Function.iterate_one, step_of_error hd]⟩
    | ok out =>
      have hline : ∀ name, line = .inclusion name → Performs fs opened name (inclusion name) :=
        fun name hl => h name (hl ▸ List.mem_cons_self)
      obtain ⟨n, hn⟩ := exists_iterate_perform hline done rest waiting
      obtain ⟨m, hm⟩ := ih (fun name hl => h name (List.mem_cons_of_mem _ hl))
        (done.andThen (ofLine inclusion · line))
      refine ⟨m + n + 1, ?_⟩
      rw [Function.iterate_succ_apply, step_of_ok hd, Function.iterate_add_apply, hn, hm,
        Expansion.andThen_assoc]
      rfl

/-- Steps carry out the inclusion of a file, if they carry out those in it. -/
theorem performs_succ {d : Nat} {name : String}
    (h : name ∉ opened → ∀ file ∈ includedFiles fs,
      Performs fs (name :: opened) file (ofFile fs d (name :: opened) file)) :
    Performs fs opened name (ofFile fs (d + 1) opened name) := by
  intro done lines waiting
  by_cases hn : name = ""
  · exact ⟨0, by simp only [openFile, ofFile, hn, if_true]; rfl⟩
  by_cases ho : name ∈ opened
  · exact ⟨0, by simp only [openFile, ofFile, hn, ho, if_true, if_false]; rfl⟩
  cases hr : fs.read name with
  | error cause => exact ⟨0, by simp only [openFile, ofFile, hn, ho, hr, if_false]; rfl⟩
  | ok text =>
    obtain ⟨n, hsteps⟩ := exists_iterate_lines
      (fun file hf => h ho file (mem_includedFiles (fs.mem_contents hr) hf))
      (done.andThen fun definitions => (ok definitions []).after [.including name])
      (lines :: waiting)
    refine ⟨n + 1, ?_⟩
    rw [Function.iterate_succ_apply']
    simp only [openFile, ofFile, hn, ho, hr, if_false, hsteps, step_nil, Expansion.andThen_assoc,
      after_andThen, ok_nil_andThen]

/-- The induction is on the number of names that may still be put on the stack. -/
theorem performs {d : Nat} {name : String} (hn : name ∈ includedFiles fs)
    (hd : (unopened fs opened).length ≤ d) : Performs fs opened name (ofFile fs d opened name) := by
  induction d generalizing opened name with
  | zero =>
    have ho := mem_opened_of_unopened hn hd
    intro done lines waiting
    by_cases he : name = "" <;>
      exact ⟨0, by simp only [openFile, ofFile, he, ho, if_true, if_false]; rfl⟩
  | succ d ih =>
    refine performs_succ fun ho file hf => ih hf ?_
    have hlt := length_unopened_cons_lt hn ho
    omega

end

/-! ## The lines to come -/

/-- All lines that are still to come are of a kind. -/
structure Reads (kind : SourceLine → Prop) (t : Traversal) : Prop where
  lines : ∀ line ∈ t.lines, kind line
  waiting : ∀ lines ∈ t.waiting, ∀ line ∈ lines, kind line

namespace Reads

variable {fs : FileSystem} {kind : SourceLine → Prop}
  (hkind : ∀ path text, fs.read path = .ok text → ∀ line ∈ SourceLine.ofText text, kind line)
  {t : Traversal} (h : Reads kind t)

include h in
theorem andThen (next : Definitions → Expansion) : Reads kind (t.andThen next) :=
  ⟨h.lines, h.waiting⟩

include hkind h

theorem openFile (name : String) : Reads kind (t.openFile fs name) := by
  unfold Traversal.openFile
  split_ifs
  · exact h.andThen _
  · exact h.andThen _
  cases hr : fs.read name with
  | error cause => exact h.andThen _
  | ok text => exact ⟨hkind name text hr, List.forall_mem_cons.2 ⟨h.lines, h.waiting⟩⟩

theorem perform (line : SourceLine) : Reads kind (t.perform fs line) := by
  cases line with
  | code | definition => exact h.andThen _
  | inclusion name => exact h.openFile hkind name

theorem step : Reads kind (t.step fs) := by
  obtain ⟨done, opened, lines, waiting⟩ := t
  cases lines with
  | cons line rest =>
    have hrest : Reads kind ⟨done, opened, rest, waiting⟩ :=
      ⟨(List.forall_mem_cons.1 h.lines).2, h.waiting⟩
    cases hd : done.report.result with
    | error e =>
      rw [step_of_error hd]
      exact ⟨List.forall_mem_nil _, h.waiting⟩
    | ok out =>
      rw [step_of_ok hd]
      exact hrest.perform hkind line
  | nil =>
    cases waiting with
    | nil => exact h
    | cons rest waiting =>
      obtain ⟨hrest, hwaiting⟩ := List.forall_mem_cons.1 h.waiting
      exact ⟨hrest, hwaiting⟩

theorem iterate (n : Nat) : Reads kind ((Traversal.step fs)^[n] t) := by
  induction n with
  | zero => exact h
  | succ n ih =>
    rw [Function.iterate_succ_apply']
    exact ih.step hkind

end Reads

/-! ## The stack -/

/-- If a line is an inclusion, then of one of some names. -/
def IncludesFrom (names : Set String) (line : SourceLine) : Prop :=
  ∀ name, line = .inclusion name → name ∈ names

/-- The stack has no name twice, and only some names. -/
structure Stacked (names : Set String) (t : Traversal) : Prop where
  nodup : t.opened.Nodup
  opened : ∀ name ∈ t.opened, name ∈ names

namespace Stacked

variable {fs : FileSystem} {names : Set String} {t : Traversal} (h : Stacked names t)
include h

theorem openFile {name : String} (hn : name ∈ names) : Stacked names (t.openFile fs name) := by
  unfold Traversal.openFile
  split_ifs with hempty ho
  · exact ⟨h.nodup, h.opened⟩
  · exact ⟨h.nodup, h.opened⟩
  cases fs.read name with
  | error cause => exact ⟨h.nodup, h.opened⟩
  | ok text =>
    exact ⟨List.nodup_cons.2 ⟨ho, h.nodup⟩, List.forall_mem_cons.2 ⟨hn, h.opened⟩⟩

theorem perform {line : SourceLine} (hl : IncludesFrom names line) :
    Stacked names (t.perform fs line) := by
  cases line with
  | code | definition => exact ⟨h.nodup, h.opened⟩
  | inclusion name => exact h.openFile (hl name rfl)

theorem step (hr : Reads (IncludesFrom names) t) : Stacked names (t.step fs) := by
  obtain ⟨done, opened, lines, waiting⟩ := t
  cases lines with
  | cons line rest =>
    have hrest : Stacked names ⟨done, opened, rest, waiting⟩ := ⟨h.nodup, h.opened⟩
    cases hd : done.report.result with
    | error e =>
      rw [step_of_error hd]
      exact ⟨h.nodup, h.opened⟩
    | ok out =>
      rw [step_of_ok hd]
      exact hrest.perform (hr.lines line List.mem_cons_self)
  | nil =>
    cases waiting with
    | nil => exact h
    | cons rest waiting =>
      exact ⟨h.nodup.tail, fun name hm => h.opened name (List.mem_of_mem_tail hm)⟩

/-- **The stack stays so**, if the lines to come and those of the files only
    include these names. -/
theorem iterate (hr : Reads (IncludesFrom names) t)
    (hnames : ∀ path text, fs.read path = .ok text →
      ∀ line ∈ SourceLine.ofText text, IncludesFrom names line) (n : Nat) :
    Stacked names ((Traversal.step fs)^[n] t) := by
  induction n with
  | zero => exact h
  | succ n ih =>
    rw [Function.iterate_succ_apply']
    exact ih.step (hr.iterate hnames n)

/-- Distinct names of a finite set are no more than there are. -/
theorem length_le (hfin : names.Finite) : t.opened.length ≤ names.ncard := by
  rw [← List.toFinset_card_of_nodup h.nodup, ← Set.ncard_coe_finset]
  exact Set.ncard_le_ncard (fun name hm => h.opened name (List.mem_toFinset.1 hm)) hfin

end Stacked

end Traversal

/-! ## Sources -/

/-- What lasts from one source to the next: the definitions, and the stack. -/
structure Preprocessor where
  definitions : Definitions := []
  opened : List String := []

/-- The traversal of a source at its start. -/
def start (p : Preprocessor) (source : String) : Traversal :=
  ⟨ok p.definitions [], p.opened, SourceLine.ofText source, []⟩

/-- **A source is traversed to its end**, and comes to its expansion. -/
theorem exists_iterate_start (fs : FileSystem) (p : Preprocessor) (source : String) :
    ∃ n, (Traversal.step fs)^[n] (start p source) =
      ⟨ofLines (ofFile fs (depth fs) p.opened) p.definitions (SourceLine.ofText source), p.opened,
        [], []⟩ := by
  have hlines : ∀ name, .inclusion name ∈ SourceLine.ofText source →
      Traversal.Performs fs p.opened name (ofFile fs (depth fs) p.opened name) :=
    fun name _ => Traversal.performs_succ fun _ file hf =>
      Traversal.performs hf (List.length_filter_le _ _)
  obtain ⟨n, hn⟩ := Traversal.exists_iterate_lines hlines (ok p.definitions []) []
  refine ⟨n, hn.trans ?_⟩
  rw [ok_nil_andThen]

/-- The names that a source and the files include. -/
def namesIncluded (fs : FileSystem) (source : String) : Set String :=
  {name | Includes (Text.lines source.toList) name ∨
    ∃ path text, fs.read path = .ok text ∧ Includes (Text.lines text.toList) name}

theorem mem_ofText_iff {text name : String} :
    .inclusion name ∈ SourceLine.ofText text ↔ Includes (Text.lines text.toList) name := by
  simp [SourceLine.ofText, Includes, ofLine_eq_inclusion_iff]

theorem namesIncluded_finite (fs : FileSystem) (source : String) :
    (namesIncluded fs source).Finite := by
  refine (((SourceLine.ofText source).filterMap SourceLine.includedFile? ++
    includedFiles fs).finite_toSet).subset ?_
  rintro name (hi | ⟨path, text, hr, hi⟩)
  · exact List.mem_append_left _ (List.mem_filterMap.2 ⟨_, mem_ofText_iff.2 hi, rfl⟩)
  · exact List.mem_append_right _ (mem_includedFiles (fs.mem_contents hr) (mem_ofText_iff.2 hi))

theorem stacked_start (fs : FileSystem) (definitions : Definitions) (source : String) (n : Nat) :
    Traversal.Stacked (namesIncluded fs source)
      ((Traversal.step fs)^[n] (start ⟨definitions, []⟩ source)) := by
  have hreads : Traversal.Reads (Traversal.IncludesFrom (namesIncluded fs source))
      (start ⟨definitions, []⟩ source) := by
    refine ⟨?_, List.forall_mem_nil _⟩
    rintro line hl name rfl
    exact Or.inl (mem_ofText_iff.1 hl)
  have hstart : Traversal.Stacked (namesIncluded fs source) (start ⟨definitions, []⟩ source) :=
    ⟨List.nodup_nil, List.forall_mem_nil _⟩
  refine hstart.iterate hreads ?_ n
  rintro path text hr line hl name rfl
  exact Or.inr ⟨path, text, hr, mem_ofText_iff.1 hl⟩

theorem nodup_of_ofSource {fs : FileSystem} {definitions : Definitions} {source : String}
    {out : List (List String)} (h : (ofSource fs definitions source).report.result = .ok out)
    {names : List String} (hc : InclusionChain fs (Text.lines source.toList) names) :
    names.Nodup := by
  obtain ⟨flat, hf, hs, -⟩ := (ofSource_ok_iff rfl).1 ⟨h, rfl⟩
  exact (hc.nodup hf hs).1

theorem leadsBack_of_ofSource {fs : FileSystem} {definitions : Definitions} {source name : String}
    (h : (ofSource fs definitions source).report.result = .error (.recursiveInclude name)) :
    LeadsBack fs name := by
  obtain ⟨flat, hf, hm⟩ := factorsLines_ofSource fs source
  rw [(hm definitions).result] at h
  rcases hf.leadsBack (Table.stop_of_recursive h) with hl | ⟨ho, -⟩
  · exact hl
  · exact absurd ho List.not_mem_nil

/-- **Every source is expanded to an end, and cycles are all that is rejected.**
    Its traversal finishes, with its expansion.  At all times the names on the
    stack are distinct, and no more than the names that occur in inclusions.  If
    there is no error, no chain of inclusions from the source has a name twice;
    and only a file that leads back to itself is reported as recursive. -/
theorem ends_and_rejects_cycles (fs : FileSystem) (definitions : Definitions) (source : String) :
    (∃ n, ((Traversal.step fs)^[n] (start ⟨definitions, []⟩ source)).Finished ∧
      ((Traversal.step fs)^[n] (start ⟨definitions, []⟩ source)).done =
        ofSource fs definitions source) ∧
    (∀ n, ((Traversal.step fs)^[n] (start ⟨definitions, []⟩ source)).opened.Nodup ∧
      ((Traversal.step fs)^[n] (start ⟨definitions, []⟩ source)).opened.length ≤
        (namesIncluded fs source).ncard) ∧
    (∀ out, (ofSource fs definitions source).report.result = .ok out →
      ∀ names, InclusionChain fs (Text.lines source.toList) names → names.Nodup) ∧
    ∀ name, (ofSource fs definitions source).report.result = .error (.recursiveInclude name) →
      LeadsBack fs name := by
  refine ⟨?_, fun n => ?_, fun out ho names hc => nodup_of_ofSource ho hc,
    fun name hr => leadsBack_of_ofSource hr⟩
  · obtain ⟨n, hn⟩ := exists_iterate_start fs ⟨definitions, []⟩ source
    refine ⟨n, ?_⟩
    rw [hn]
    exact ⟨⟨rfl, rfl⟩, rfl⟩
  · have hs := stacked_start fs definitions source n
    exact ⟨hs.nodup, hs.length_le (namesIncluded_finite fs source)⟩

/-- A file that includes itself by another path is rejected once it comes to
    include itself by the same. -/
example :
    (ofSource (.ofTable [("a", .ok "%include ./a"), ("./a", .ok "%include ./a")]) []
      "%include a").report.result = .error (.recursiveInclude "./a") := by
  decide

end Expansion

end RegisterMachine
