/-
  One preprocessor for many sources.

  Definitions last from one source to the next, also if a source fails.  The
  stack of the files that are being included lasts too, but is always empty
  between two sources.

  * `Traversal.step_table`: a step leaves the definitions alone, or carries out a
    line without inclusion.  So at all times each name keeps its value
    (`Traversal.holds_iterate`) and stands for tokens
    (`Traversal.tokenized_iterate`);
  * `Preprocessor.process` traverses a source to its end, and
    `Preprocessor.after` does so with one source after another;
  * `process_eq`: the stack is as before, and what the source comes to depends
    on it and on the definitions alone;
  * `Serves fs p source t`: what a traversal gives and leaves behind.
    `reuse_serves`: every source is served so, whatever came before.
-/
import RegisterMachine.Proofs.Traversal

namespace RegisterMachine

namespace Expansion

/-! ## Definitions on the way -/

theorem definitions_andThen {expansion : Expansion} {next : Definitions → Expansion}
    (h : ∀ definitions, (next definitions).definitions = definitions) :
    (expansion.andThen next).definitions = expansion.definitions := by
  unfold andThen
  cases expansion.report.result with
  | error e => rfl
  | ok lines => exact h expansion.definitions

namespace Traversal

/-- The value of each name that is defined so far. -/
def table (t : Traversal) : Table :=
  t.done.definitions.value?

/-- A line of a text, sorted. -/
def Written (line : SourceLine) : Prop :=
  ∃ raw : Line, '\n' ∉ raw ∧ SourceLine.ofLine raw = line

theorem written_of_mem_ofText {text : String} {line : SourceLine}
    (h : line ∈ SourceLine.ofText text) : Written line := by
  obtain ⟨raw, hm, rfl⟩ := List.mem_map.1 h
  exact ⟨raw, Text.newline_not_mem hm, rfl⟩

section
variable {fs : FileSystem}

theorem table_openFile (t : Traversal) (name : String) : (t.openFile fs name).table = t.table := by
  have hdone : (t.openFile fs name).done.definitions = t.done.definitions := by
    unfold openFile
    split_ifs
    · exact definitions_andThen fun _ => rfl
    · exact definitions_andThen fun _ => rfl
    cases fs.read name with
    | error cause => exact definitions_andThen fun _ => rfl
    | ok text => exact definitions_andThen fun _ => rfl
  rw [table, hdone, table]

/-- A line without inclusion does to the definitions what the pass does. -/
theorem table_perform {t : Traversal} {out : List (List String)}
    (ho : t.done.report.result = .ok out) {raw : Line} (hi : included? raw = none) :
    (t.perform fs (SourceLine.ofLine raw)).table = (t.table.line raw).table := by
  -- the line includes no file, so any expansion of files will do
  have hperform : t.perform fs (SourceLine.ofLine raw) =
      t.andThen (ofLine (fun _ => (error · .emptyInclude)) · (SourceLine.ofLine raw)) := by
    cases hl : SourceLine.ofLine raw with
    | code | definition => rfl
    | inclusion name =>
      rw [ofLine_eq_inclusion_iff, hi] at hl
      cases hl
  rw [hperform, table, Traversal.andThen, Expansion.andThen, ho]
  exact (matches_line hi _ _).table

/-- **What a step can do to the definitions.** -/
theorem step_table {t : Traversal} (h : Reads Written t) :
    (t.step fs).table = t.table ∨
      ∃ raw : Line, '\n' ∉ raw ∧ (t.step fs).table = (t.table.line raw).table := by
  obtain ⟨done, opened, lines, waiting⟩ := t
  cases lines with
  | nil => cases waiting <;> exact Or.inl rfl
  | cons line rest =>
    cases hd : done.report.result with
    | error e =>
      rw [step_of_error hd]
      exact Or.inl rfl
    | ok out =>
      obtain ⟨raw, hn, rfl⟩ := h.lines _ List.mem_cons_self
      rw [step_of_ok hd]
      cases hi : included? raw with
      | none => exact Or.inr ⟨raw, hn, table_perform hd hi⟩
      | some name =>
        rw [ofLine_eq_inclusion_iff.2 hi]
        exact Or.inl (table_openFile _ name)

variable {t : Traversal} (h : Reads Written t)
include h

theorem reads_written_iterate (n : Nat) : Reads Written ((step fs)^[n] t) :=
  h.iterate (fun _ _ _ _ hm => written_of_mem_ofText hm) n

/-- **A name keeps its value**, from one moment to every later one. -/
theorem holds_iterate {n m : Nat} (hnm : n ≤ m) :
    ((step fs)^[n] t).table.Holds ((step fs)^[m] t).table := by
  induction m, hnm using Nat.le_induction with
  | base => exact .refl _
  | succ m _ ih =>
    rw [Function.iterate_succ_apply']
    refine ih.trans ?_
    rcases step_table (reads_written_iterate h m) with hs | ⟨raw, -, hs⟩
    · rw [hs]
      exact .refl _
    · rw [hs]
      exact Table.holds_line _ raw

/-- **Names stand for tokens at all times.** -/
theorem tokenized_iterate (ht : t.table.Tokenized) (n : Nat) :
    ((step fs)^[n] t).table.Tokenized := by
  induction n with
  | zero => exact ht
  | succ n ih =>
    rw [Function.iterate_succ_apply']
    rcases step_table (reads_written_iterate h n) with hs | ⟨raw, hn, hs⟩
    · rwa [hs]
    · rw [hs]
      exact ih.line hn

end

/-! ## Traversals at their end -/

/-- Nothing happens after the end. -/
theorem iterate_eq_of_le {fs : FileSystem} {t : Traversal} {n m : Nat}
    (h : ((step fs)^[n] t).Finished) (hnm : n ≤ m) : (step fs)^[m] t = (step fs)^[n] t := by
  obtain ⟨k, rfl⟩ := Nat.exists_eq_add_of_le' hnm
  rw [Function.iterate_add_apply, Function.iterate_fixed (step_of_finished h)]

end Traversal

namespace Preprocessor

theorem exists_finished (fs : FileSystem) (p : Preprocessor) (source : String) :
    ∃ n, ((Traversal.step fs)^[n] (start p source)).Finished := by
  obtain ⟨n, hn⟩ := exists_iterate_start fs p source
  refine ⟨n, ?_⟩
  rw [hn]
  exact ⟨rfl, rfl⟩

/-- Traverses a source to its end. -/
def process (fs : FileSystem) (p : Preprocessor) (source : String) : Traversal :=
  (Traversal.step fs)^[Nat.find (p.exists_finished fs source)] (start p source)

/-- What a traversal leaves behind. -/
def ofTraversal (t : Traversal) : Preprocessor :=
  ⟨t.done.definitions, t.opened⟩

/-- Processes sources, one after another. -/
def after (fs : FileSystem) (p : Preprocessor) : List String → Preprocessor
  | [] => p
  | source :: rest => after fs (ofTraversal (p.process fs source)) rest

theorem after_append (fs : FileSystem) (p : Preprocessor) (sources more : List String) :
    after fs p (sources ++ more) = after fs (after fs p sources) more := by
  induction sources generalizing p with
  | nil => rfl
  | cons source rest ih => exact ih _

theorem iterate_eq_process (fs : FileSystem) (p : Preprocessor) (source : String) {n : Nat}
    (hn : Nat.find (p.exists_finished fs source) ≤ n) :
    (Traversal.step fs)^[n] (start p source) = p.process fs source :=
  Traversal.iterate_eq_of_le (Nat.find_spec (p.exists_finished fs source)) hn

/-- **The stack is as before at the end of a source.** -/
theorem process_eq (fs : FileSystem) (p : Preprocessor) (source : String) :
    p.process fs source =
      ⟨ofLines (ofFile fs (depth fs) p.opened) p.definitions (SourceLine.ofText source), p.opened,
        [], []⟩ := by
  obtain ⟨n, hn⟩ := exists_iterate_start fs p source
  have hfinished : ((Traversal.step fs)^[n] (start p source)).Finished := by
    rw [hn]
    exact ⟨rfl, rfl⟩
  rw [← hn]
  exact (Traversal.iterate_eq_of_le (Nat.find_spec (p.exists_finished fs source))
    (Nat.find_min' _ hfinished)).symm

/-! ## What a source is served with -/

/-- What a source gives and leaves behind. -/
structure Serves (fs : FileSystem) (p : Preprocessor) (source : String) (t : Traversal) :
    Prop where
  /-- The traversal ends with `t`. -/
  ended : ∃ k, ∀ n, k ≤ n → (Traversal.step fs)^[n] (start p source) = t
  /-- The stack is empty again. -/
  opened : t.opened = []
  /-- Earlier sources matter for their definitions only. -/
  done : t.done = ofSource fs p.definitions source
  /-- A name keeps its value once it is defined. -/
  holds : ∀ n m, n ≤ m → ((Traversal.step fs)^[n] (start p source)).table.Holds
    ((Traversal.step fs)^[m] (start p source)).table
  /-- At all times names stand for tokens, for one at least. -/
  tokenized : ∀ n, ((Traversal.step fs)^[n] (start p source)).table.Tokenized
  /-- After an error just the definitions before it are added. -/
  failed : ∀ e, t.done.report.result = .error e →
    ∃ flat before rest out, FlattensLines fs [] (Text.lines source.toList) flat ∧
      flat.lines = before ++ rest ∧
      Table.lines none before p.definitions.value? = ⟨t.table, .ok out⟩ ∧
      t.table.FailsAt flat.stop e rest
  /-- Each line gives one, with something for each of its tokens, and an empty
      one just for a silent line. -/
  output : ∀ out, t.done.report.result = .ok out →
    ∃ flat, FlattensLines fs [] (Text.lines source.toList) flat ∧
      List.Forall₂ t.table.Gives flat.lines out ∧
      List.Forall₂ (fun line tokens => tokens = [] ↔ Table.Silent line) flat.lines out

theorem reads_written_start (p : Preprocessor) (source : String) :
    Traversal.Reads Traversal.Written (start p source) :=
  ⟨fun _ hm => Traversal.written_of_mem_ofText hm, List.forall_mem_nil _⟩

theorem serves_process {fs : FileSystem} {p : Preprocessor} (ho : p.opened = [])
    (ht : Table.Tokenized p.definitions.value?) (source : String) :
    Serves fs p source (p.process fs source) := by
  have hp : p.process fs source = ⟨ofSource fs p.definitions source, [], [], []⟩ := by
    rw [process_eq, ho]
    rfl
  obtain ⟨flat, hf, hm⟩ := factorsLines_ofSource fs source
  have hlines : ∀ line ∈ flat.lines, '\n' ∉ line :=
    hf.forall_lines (fun _ _ => Text.newline_not_mem) fun _ => Text.newline_not_mem
  have htable : (p.process fs source).table = (flat.pass p.definitions.value?).table :=
    hp ▸ (hm p.definitions).table
  have hresult : (p.process fs source).done.report.result =
      (flat.pass p.definitions.value?).result := hp ▸ (hm p.definitions).result
  have hstart := reads_written_start p source
  refine ⟨⟨_, fun n => iterate_eq_process fs p source⟩, by rw [hp], by rw [hp],
    fun n m => Traversal.holds_iterate hstart, Traversal.tokenized_iterate hstart ht,
    fun e he => ?_, fun out hout => ?_⟩
  · rw [hresult] at he
    rw [htable]
    obtain ⟨before, rest, out, hl, hb, hfails⟩ := Table.exists_failure he
    exact ⟨flat, before, rest, out, hf, hl, hb, hfails⟩
  · rw [hresult] at hout
    have hgives : List.Forall₂ (p.process fs source).table.Gives flat.lines out := by
      rw [htable]
      exact Table.forall₂_lines hlines ht (congrArg (Pass.mk _) hout)
    exact ⟨flat, hf, hgives, hgives.imp fun _ _ h => h.eq_nil_iff⟩

/-- Nothing is being included, and names stand for tokens. -/
structure Ready (p : Preprocessor) : Prop where
  opened : p.opened = []
  tokenized : Table.Tokenized p.definitions.value?

theorem ready_fresh : Ready {} :=
  ⟨rfl, Table.tokenized_empty⟩

section
variable {fs : FileSystem} {p : Preprocessor} (h : p.Ready)
include h

theorem ready_process (source : String) : (ofTraversal (p.process fs source)).Ready where
  opened := (serves_process h.opened h.tokenized source).opened
  tokenized := (serves_process h.opened h.tokenized source).tokenized _

theorem ready_after (sources : List String) : (after fs p sources).Ready := by
  induction sources generalizing p with
  | nil => exact h
  | cons source rest ih => exact ih (ready_process h source)

theorem holds_after (sources : List String) :
    Table.Holds p.definitions.value? (after fs p sources).definitions.value? := by
  induction sources generalizing p with
  | nil => exact .refl _
  | cons source rest ih =>
    have hs : Table.Holds p.definitions.value? (p.process fs source).table :=
      Traversal.holds_iterate (reads_written_start p source) (Nat.zero_le _)
    exact hs.trans (ih (ready_process h source))

end

/-- **A preprocessor can be used again and again.**  After any sources, failed
    ones among them, its stack is empty, and the next source is served by the
    definitions alone.  A name keeps its value through all sources to come, and
    a substitution puts something in the place of each token. -/
theorem reuse_serves (fs : FileSystem) (sources : List String) :
    (after fs {} sources).opened = [] ∧
    (∀ source, Serves fs (after fs {} sources) source (process fs (after fs {} sources) source)) ∧
    (∀ more, Table.Holds (after fs {} sources).definitions.value?
      (after fs {} (sources ++ more)).definitions.value?) ∧
    ∀ front token back, ∃ new, new ≠ [] ∧
      (after fs {} sources).definitions.substitute (front ++ token :: back) =
        (after fs {} sources).definitions.substitute front ++ new ++
          (after fs {} sources).definitions.substitute back := by
  have hr : (after fs {} sources).Ready := ready_after ready_fresh sources
  refine ⟨hr.opened, serves_process hr.opened hr.tokenized, fun more => ?_,
    hr.tokenized.exists_substitute⟩
  rw [after_append]
  exact holds_after hr more

end Preprocessor

end Expansion

end RegisterMachine
