/-
  Chains of inclusions, and inclusion as inlining.

  * `InclusionChain fs lines names`: lines include the first of some files, and
    each of these includes the next.  `InclusionChain.nodup`: where no inclusion
    fails, a chain has no file twice, and none that is being included;
  * `LeadsBack fs name`: a file leads to its own inclusion.
    `FlattensLines.leadsBack`: only such a file is reported as recursive;
  * `FlattensLines.reopen`: which files are being included does not matter, as
    long as no chain meets one of them;
  * `inclusion_inlined`: a line that includes a file may be replaced by the lines
    of the file, and any line by one that is read as the same.
-/
import RegisterMachine.Proofs.Flattening

namespace RegisterMachine

/-! ## Chains -/

/-- Whether lines include a file. -/
def Includes (lines : List Line) (name : String) : Prop :=
  ∃ line ∈ lines, included? line = some name

/-- A chain of inclusions that starts in lines: they include its first file, and
    each file includes the next. -/
inductive InclusionChain (fs : FileSystem) : List Line → List String → Prop where
  | last {lines : List Line} {name : String} : Includes lines name → InclusionChain fs lines [name]
  | next {lines : List Line} {name text : String} {names : List String} : Includes lines name →
      fs.read name = .ok text → InclusionChain fs (Text.lines text.toList) names →
      InclusionChain fs lines (name :: names)

/-- A file whose text leads, through a chain of inclusions, to an inclusion of
    the file itself. -/
def LeadsBack (fs : FileSystem) (name : String) : Prop :=
  ∃ text names, fs.read name = .ok text ∧
    InclusionChain fs (Text.lines text.toList) (names ++ [name])

theorem includes_cons_iff {line : Line} {rest : List Line} {name : String} :
    Includes (line :: rest) name ↔ included? line = some name ∨ Includes rest name := by
  simp [Includes]

/-- A chain may start further down. -/
theorem InclusionChain.of_rest {fs : FileSystem} {line : Line} {rest : List Line}
    {names : List String} (hc : InclusionChain fs rest names) :
    InclusionChain fs (line :: rest) names := by
  cases hc with
  | last hi => exact .last (includes_cons_iff.2 (Or.inr hi))
  | next hi hr hc => exact .next (includes_cons_iff.2 (Or.inr hi)) hr hc

/-! ## Where no inclusion fails -/

namespace Flat

theorem stop_append_eq_none_iff {first later : Flat} :
    (first.append later).stop = none ↔ first.stop = none ∧ later.stop = none := by
  obtain ⟨lines, _ | e⟩ := first <;> simp [append]

theorem stop_append {first later : Flat} {e : ExpansionError}
    (h : (first.append later).stop = some e) : first.stop = some e ∨ later.stop = some e := by
  obtain ⟨lines, _ | e'⟩ := first
  · exact Or.inr h
  · exact Or.inl h

end Flat

/-- A file whose inclusion does not fail is not being included, and its text is
    flattened. -/
theorem FlattensFile.exists_text {fs : FileSystem} {opened : List String} {name : String}
    {flat : Flat} (h : FlattensFile fs opened name flat) (hs : flat.stop = none) :
    name ∉ opened ∧ ∃ text, fs.read name = .ok text ∧
      FlattensLines fs (name :: opened) (Text.lines text.toList) flat := by
  cases h with
  | unnamed | recursive | unreadable => cases hs
  | readable _ ho hr hl => exact ⟨ho, _, hr, hl⟩

/-- No file fails that is included by lines whose inclusions do not fail. -/
theorem FlattensLines.exists_file {fs : FileSystem} {opened : List String} {lines : List Line}
    {flat : Flat} {name : String} (h : FlattensLines fs opened lines flat) (hs : flat.stop = none)
    (hi : Includes lines name) : ∃ file, FlattensFile fs opened name file ∧ file.stop = none := by
  induction lines generalizing flat with
  | nil =>
    obtain ⟨line, hl, -⟩ := hi
    cases hl
  | cons line rest ih =>
    cases h with
    | line hn hl =>
      refine ih hl hs ((includes_cons_iff.1 hi).resolve_left ?_)
      simp [hn]
    | inclusion hn hf hl =>
      obtain ⟨hfs, hls⟩ := Flat.stop_append_eq_none_iff.1 hs
      rcases includes_cons_iff.1 hi with hi | hi
      · cases hn.symm.trans hi
        exact ⟨_, hf, hfs⟩
      · exact ih hl hls hi

namespace InclusionChain

variable {fs : FileSystem} {lines : List Line} {names : List String}

/-- **Where no inclusion fails, a chain has no file twice**, and none that is
    being included. -/
theorem nodup (hc : InclusionChain fs lines names) :
    ∀ {opened flat}, FlattensLines fs opened lines flat → flat.stop = none →
      names.Nodup ∧ ∀ name ∈ names, name ∉ opened := by
  induction hc with
  | @last lines name hi =>
    intro opened flat h hs
    obtain ⟨file, hf, hfs⟩ := h.exists_file hs hi
    obtain ⟨ho, -⟩ := hf.exists_text hfs
    simp [ho]
  | @next lines name text names hi hr _ ih =>
    intro opened flat h hs
    obtain ⟨file, hf, hfs⟩ := h.exists_file hs hi
    obtain ⟨ho, text', hr', hl⟩ := hf.exists_text hfs
    cases hr.symm.trans hr'
    obtain ⟨hnd, hout⟩ := ih hl hfs
    simp only [List.mem_cons, not_or] at hout
    refine ⟨List.nodup_cons.2 ⟨fun hm => (hout name hm).1 rfl, hnd⟩, fun other hm => ?_⟩
    rcases List.mem_cons.1 hm with rfl | hm
    · exact ho
    · exact (hout other hm).2

/-- The files of a chain are flattened too. -/
theorem exists_file (hc : InclusionChain fs lines names) :
    ∀ {opened flat}, FlattensLines fs opened lines flat → flat.stop = none →
      ∀ name ∈ names, ∃ opened' file, FlattensFile fs opened' name file ∧ file.stop = none := by
  induction hc with
  | @last lines name hi =>
    intro opened flat h hs other hm
    rw [List.mem_singleton.1 hm]
    exact ⟨opened, h.exists_file hs hi⟩
  | @next lines name text names hi hr _ ih =>
    intro opened flat h hs other hm
    obtain ⟨file, hf, hfs⟩ := h.exists_file hs hi
    rcases List.mem_cons.1 hm with rfl | hm
    · exact ⟨opened, file, hf, hfs⟩
    · obtain ⟨-, text', hr', hl⟩ := hf.exists_text hfs
      cases hr.symm.trans hr'
      exact ih hl hfs other hm

/-- A chain that starts in the text of a file does not come back to the file. -/
theorem not_mem_of_read {name text : String} (hr : fs.read name = .ok text)
    (hc : InclusionChain fs (Text.lines text.toList) names) {opened : List String} {flat : Flat}
    (h : FlattensLines fs opened (Text.lines text.toList) flat) (hs : flat.stop = none) :
    name ∉ names := by
  intro hm
  -- the file at the end is flattened while it is being included itself
  obtain ⟨opened', file, hf, hfs⟩ := hc.exists_file h hs name hm
  obtain ⟨-, text', hr', hl⟩ := hf.exists_text hfs
  cases hr.symm.trans hr'
  exact (hc.nodup hl hfs).2 name hm List.mem_cons_self

end InclusionChain

/-! ## The files that are being included -/

mutual

/-- What is being included does not matter to a file, as long as no chain
    through its inclusion meets that. -/
theorem FlattensFile.reopen {fs : FileSystem} {lines : List Line} {opened' : List String} :
    ∀ {opened : List String} {name : String} {flat : Flat}, FlattensFile fs opened name flat →
      flat.stop = none → Includes lines name →
      (∀ names, InclusionChain fs lines names → ∀ other ∈ names, other ∉ opened') →
      FlattensFile fs opened' name flat
  | _, name, _, .readable hn _ hr hl, hs, hi, hd => by
    have ho : name ∉ opened' := hd [name] (.last hi) name List.mem_cons_self
    refine .readable hn ho hr (hl.reopen hs fun names hc other hm => ?_)
    have hname : name ∉ names := hc.not_mem_of_read hr hl hs
    have hother : other ∉ opened' := hd (name :: names) (.next hi hr hc) other (by simp [hm])
    rw [List.mem_cons, not_or]
    exact ⟨fun he => hname (he ▸ hm), hother⟩

/-- What is being included does not matter to lines, as long as no chain from
    them meets that. -/
theorem FlattensLines.reopen {fs : FileSystem} {opened' : List String} : ∀ {opened : List String}
    {lines : List Line} {flat : Flat}, FlattensLines fs opened lines flat → flat.stop = none →
      (∀ names, InclusionChain fs lines names → ∀ name ∈ names, name ∉ opened') →
      FlattensLines fs opened' lines flat
  | _, _, _, .nil, _, _ => .nil
  | _, _, _, .line hi hl, hs, hd =>
    .line hi (hl.reopen hs fun names hc => hd names hc.of_rest)
  | _, _, _, .inclusion hi hf hl, hs, hd => by
    obtain ⟨hfs, hls⟩ := Flat.stop_append_eq_none_iff.1 hs
    refine .inclusion hi (hf.reopen hfs (includes_cons_iff.2 (Or.inl hi)) hd) ?_
    exact hl.reopen hls fun names hc => hd names hc.of_rest

end

/-! ## Recursive inclusions -/

section
variable {fs : FileSystem} {name : String}

mutual

theorem FlattensFile.leadsBack {lines : List Line} : ∀ {opened : List String} {file : String}
    {flat : Flat}, FlattensFile fs opened file flat → flat.stop = some (.recursiveInclude name) →
      Includes lines file →
      LeadsBack fs name ∨ name ∈ opened ∧ ∃ names, InclusionChain fs lines (names ++ [name])
  | _, _, _, .recursive _ ho, hs, hi => by
    cases hs
    exact Or.inr ⟨ho, [], .last hi⟩
  | _, file, _, .readable _ _ hr hl, hs, hi => by
    rcases hl.leadsBack hs with h | ⟨ho, names, hc⟩
    · exact Or.inl h
    rcases List.mem_cons.1 ho with rfl | ho
    · exact Or.inl ⟨_, names, hr, hc⟩
    · exact Or.inr ⟨ho, file :: names, .next hi hr hc⟩

/-- **Only a file that leads back to itself is reported as recursive**, unless
    it was being included before and a chain meets it. -/
theorem FlattensLines.leadsBack : ∀ {opened : List String} {lines : List Line} {flat : Flat},
    FlattensLines fs opened lines flat → flat.stop = some (.recursiveInclude name) →
      LeadsBack fs name ∨ name ∈ opened ∧ ∃ names, InclusionChain fs lines (names ++ [name])
  | _, _, _, .line _ hl, hs =>
    (hl.leadsBack hs).imp_right fun ⟨ho, names, hc⟩ => ⟨ho, names, hc.of_rest⟩
  | _, _, _, .inclusion hi hf hl, hs => by
    rcases Flat.stop_append hs with hs | hs
    · exact hf.leadsBack hs (includes_cons_iff.2 (Or.inl hi))
    · exact (hl.leadsBack hs).imp_right fun ⟨ho, names, hc⟩ => ⟨ho, names, hc.of_rest⟩

end

end

/-! ## Inlining -/

namespace Flat

theorem cons_append (line : Line) (first later : Flat) :
    (cons line first).append later = cons line (first.append later) := by
  obtain ⟨lines, _ | e⟩ := first <;> rfl

theorem append_assoc (first second third : Flat) :
    (first.append second).append third = first.append (second.append third) := by
  obtain ⟨lines, _ | e⟩ := first
  · obtain ⟨lines', _ | e'⟩ := second <;> simp [append]
  · rfl

end Flat

section
variable {fs : FileSystem} {opened : List String}

theorem flattensLines_append_iff {first later : List Line} {flat : Flat} :
    FlattensLines fs opened (first ++ later) flat ↔
      ∃ f l, FlattensLines fs opened first f ∧ FlattensLines fs opened later l ∧
        flat = f.append l := by
  induction first generalizing flat with
  | nil =>
    constructor
    · exact fun h => ⟨.empty, flat, .nil, h, rfl⟩
    · rintro ⟨f, l, hf, hl, rfl⟩
      cases hf
      exact hl
  | cons line rest ih =>
    constructor
    · intro h
      cases h with
      | line hi hr =>
        obtain ⟨f, l, hf, hl, rfl⟩ := ih.1 hr
        exact ⟨_, l, .line hi hf, hl, (Flat.cons_append line f l).symm⟩
      | inclusion hi hn hr =>
        obtain ⟨f, l, hf, hl, rfl⟩ := ih.1 hr
        exact ⟨_, l, .inclusion hi hn hf, hl, (Flat.append_assoc _ f l).symm⟩
    · rintro ⟨f, l, hf, hl, rfl⟩
      cases hf with
      | line hi hf =>
        rw [Flat.cons_append]
        exact .line hi (ih.2 ⟨_, l, hf, hl, rfl⟩)
      | inclusion hi hn hf =>
        rw [Flat.append_assoc]
        exact .inclusion hi hn (ih.2 ⟨_, l, hf, hl, rfl⟩)

theorem flattensLines_singleton_iff {line : Line} {name : String} (hi : included? line = some name)
    {flat : Flat} : FlattensLines fs opened [line] flat ↔ FlattensFile fs opened name flat := by
  have hempty : ∀ file : Flat, file.append .empty = file := by
    rintro ⟨lines, _ | e⟩ <;> simp [Flat.append, Flat.empty]
  constructor
  · intro h
    cases h with
    | line hn => cases hi.symm.trans hn
    | inclusion hn hf hl =>
      cases hi.symm.trans hn
      cases hl
      rwa [hempty]
  · intro h
    rw [← hempty flat]
    exact .inclusion hi h .nil

end

/-- The lines of a file and its inclusion come to the same, where no inclusion
    fails and no file is being included. -/
theorem flattensFile_iff_lines {fs : FileSystem} {name text : String} (hn : name ≠ "")
    (hr : fs.read name = .ok text) {flat : Flat} (hs : flat.stop = none) :
    FlattensFile fs [] name flat ↔ FlattensLines fs [] (Text.lines text.toList) flat := by
  constructor
  · intro h
    obtain ⟨-, text', hr', hl⟩ := h.exists_text hs
    cases hr.symm.trans hr'
    exact hl.reopen hs fun _ _ _ _ => List.not_mem_nil
  · intro h
    refine .readable hn List.not_mem_nil hr (h.reopen hs fun names hc other hm => ?_)
    rw [List.mem_singleton]
    exact fun he => hc.not_mem_of_read hr h hs (he ▸ hm)

/-- Where no inclusion fails, lines come to the same as others. -/
def FlattensAlike (fs : FileSystem) (lines lines' : List Line) : Prop :=
  ∀ flat, flat.stop = none → (FlattensLines fs [] lines flat ↔ FlattensLines fs [] lines' flat)

namespace FlattensAlike

variable {fs : FileSystem}

theorem refl (lines : List Line) : FlattensAlike fs lines lines :=
  fun _ _ => Iff.rfl

theorem append {first first' later later' : List Line} (hf : FlattensAlike fs first first')
    (hl : FlattensAlike fs later later') :
    FlattensAlike fs (first ++ later) (first' ++ later') := by
  intro flat hs
  rw [flattensLines_append_iff, flattensLines_append_iff]
  constructor <;>
    (rintro ⟨f, l, h, h', rfl⟩
     obtain ⟨hfs, hls⟩ := Flat.stop_append_eq_none_iff.1 hs)
  · exact ⟨f, l, (hf f hfs).1 h, (hl l hls).1 h', rfl⟩
  · exact ⟨f, l, (hf f hfs).2 h, (hl l hls).2 h', rfl⟩

/-- A line that includes a file comes to the same as the lines of the file. -/
theorem inclusion {line : Line} {name text : String} (hi : included? line = some name)
    (hn : name ≠ "") (hr : fs.read name = .ok text) :
    FlattensAlike fs [line] (Text.lines text.toList) := by
  intro flat hs
  rw [flattensLines_singleton_iff hi, flattensFile_iff_lines hn hr hs]

end FlattensAlike

namespace Expansion

/-- A source is expanded without error iff no inclusion fails in it and the pass
    over its flat lines succeeds.  Lines that are read as the same may stand for its
    own. -/
theorem ofSource_ok_iff {fs : FileSystem} {definitions : Definitions} {source : String}
    {lines : List Line} (hl : SourceLine.ofText source = lines.map SourceLine.ofLine)
    {table : Table} {out : List (List String)} :
    (ofSource fs definitions source).report.result = .ok out ∧
        (ofSource fs definitions source).definitions.value? = table ↔
      ∃ flat, FlattensLines fs [] lines flat ∧ flat.stop = none ∧
        flat.pass definitions.value? = ⟨table, .ok out⟩ := by
  obtain ⟨flat, hf, hm⟩ := factorsLines_depth fs lines
  rw [ofSource, hl]
  obtain ⟨ht, hr⟩ := hm definitions
  constructor
  · rintro ⟨ho, rfl⟩
    have hp : flat.pass definitions.value? = ⟨_, .ok out⟩ :=
      congrArg₂ Pass.mk ht.symm (hr.symm.trans ho)
    refine ⟨flat, hf, ?_, hp⟩
    by_contra hs
    obtain ⟨e, hs⟩ := Option.ne_none_iff_exists'.1 hs
    obtain ⟨e', he⟩ := Table.exists_lines_error e flat.lines definitions.value?
    rw [Flat.pass, hs] at hp
    rw [hp] at he
    cases he
  · rintro ⟨flat', hf', -, hp⟩
    cases hf.unique _ hf'
    rw [hp] at ht hr
    exact ⟨hr, ht⟩

/-- Where no inclusion fails, sources with lines that come to the same have the
    same expansion. -/
theorem ofSource_ok_iff_of_flattensAlike {fs : FileSystem} {source source' : String}
    {lines lines' : List Line} (hl : SourceLine.ofText source = lines.map SourceLine.ofLine)
    (hl' : SourceLine.ofText source' = lines'.map SourceLine.ofLine)
    (h : FlattensAlike fs lines lines') (definitions : Definitions) (out : List (List String))
    (table : Table) :
    (ofSource fs definitions source).report.result = .ok out ∧
        (ofSource fs definitions source).definitions.value? = table ↔
      (ofSource fs definitions source').report.result = .ok out ∧
        (ofSource fs definitions source').definitions.value? = table := by
  rw [ofSource_ok_iff hl, ofSource_ok_iff hl']
  refine exists_congr fun flat => ?_
  by_cases hs : flat.stop = none
  · rw [h flat hs]
  · simp [hs]

/-- **An inclusion is its file in place.**  If one source has an inclusion of a
    readable file where another has the lines of the file, then both are expanded
    without error or none is, and they give the same lines and leave the same
    definitions.  It only matters what the lines are read as, so the texts may end
    their lines in different ways. -/
theorem inclusion_inlined {fs : FileSystem} {source inlined name text : String}
    {before after : List SourceLine} (hn : name ≠ "") (hr : fs.read name = .ok text)
    (hsource : SourceLine.ofText source = before ++ [.inclusion name] ++ after)
    (hinlined : SourceLine.ofText inlined = before ++ SourceLine.ofText text ++ after)
    (definitions : Definitions) :
    ((∃ out, (ofSource fs definitions source).report.result = .ok out) ↔
        ∃ out, (ofSource fs definitions inlined).report.result = .ok out) ∧
      ∀ out out', (ofSource fs definitions source).report.result = .ok out →
        (ofSource fs definitions inlined).report.result = .ok out' →
        out = out' ∧ (ofSource fs definitions source).definitions.value? =
          (ofSource fs definitions inlined).definitions.value? := by
  obtain ⟨front, last, hlines, hfront, rfl⟩ := List.map_eq_append_iff.1 hsource
  obtain ⟨first, middle, rfl, rfl, hmiddle⟩ := List.map_eq_append_iff.1 hfront
  obtain ⟨line, rfl, hline⟩ := List.map_eq_singleton_iff.1 hmiddle
  have hi : included? line = some name := ofLine_eq_inclusion_iff.1 hline
  have halike : FlattensAlike fs (first ++ [line] ++ last)
      (first ++ Text.lines text.toList ++ last) :=
    ((FlattensAlike.refl first).append (.inclusion hi hn hr)).append (.refl last)
  have hl : SourceLine.ofText source = (first ++ [line] ++ last).map SourceLine.ofLine :=
    congrArg (List.map SourceLine.ofLine) hlines
  have hl' : SourceLine.ofText inlined =
      (first ++ Text.lines text.toList ++ last).map SourceLine.ofLine := by
    rw [hinlined, List.map_append, List.map_append]
    rfl
  have hiff := ofSource_ok_iff_of_flattensAlike hl hl' halike definitions
  refine ⟨?_, fun out out' ho ho' => ?_⟩
  · exact ⟨fun ⟨out, ho⟩ => ⟨out, ((hiff out _).1 ⟨ho, rfl⟩).1⟩,
      fun ⟨out, ho⟩ => ⟨out, ((hiff out _).2 ⟨ho, rfl⟩).1⟩⟩
  · obtain ⟨hout, htable⟩ := (hiff out _).1 ⟨ho, rfl⟩
    rw [hout] at ho'
    exact ⟨Except.ok.inj ho', htable.symm⟩

/-- A file with a definition, which includes another file. -/
def library : FileSystem :=
  .ofTable [("step", .ok "inc cx\n"), ("lib", .ok "%define two 2\n%include step\ndec ax, two")]

/-- Includes the file, and the file in that.  Its lines end with carriage returns. -/
def borrowing : String :=
  "%include step\r\n %include lib # again\r\ninc bx, two"

/-- Has the lines of the file. -/
def owning : String :=
  "%include step\n%define two 2\n%include step\ndec ax, two\ninc bx, two"

theorem inclusion_inlined_borrowing :
    ∃ out, (ofSource library [("one", ["1"])] borrowing).report.result = .ok out ∧
      (ofSource library [("one", ["1"])] owning).report.result = .ok out ∧
      (ofSource library [("one", ["1"])] borrowing).definitions.value? =
        (ofSource library [("one", ["1"])] owning).definitions.value? := by
  have hr : library.read "lib" = .ok "%define two 2\n%include step\ndec ax, two" := rfl
  have hborrowing : SourceLine.ofText borrowing =
      [.inclusion "step"] ++ [.inclusion "lib"] ++ [.code ["inc", "bx", "two"]] := by decide
  have howning : SourceLine.ofText owning = [.inclusion "step"] ++
      SourceLine.ofText "%define two 2\n%include step\ndec ax, two" ++
        [.code ["inc", "bx", "two"]] := by decide
  obtain ⟨hiff, hsame⟩ :=
    inclusion_inlined (by decide) hr hborrowing howning [("one", ["1"])]
  have hout : (ofSource library [("one", ["1"])] borrowing).report.result =
      .ok [["inc", "cx"], [], ["inc", "cx"], ["dec", "ax", "2"], ["inc", "bx", "2"]] := by decide
  obtain ⟨out', hout'⟩ := hiff.1 ⟨_, hout⟩
  obtain ⟨rfl, htable⟩ := hsame _ _ hout hout'
  exact ⟨_, hout, hout', htable⟩

end Expansion

end RegisterMachine
