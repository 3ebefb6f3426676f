/-
  The names of included files.

  The name is what the code of a line has after the directive, without the blanks
  around it.  A search of the line for the directive finds the same name, although it
  does not look at tokens: only separators stand before the first one, so the search
  comes to that first, even if the name has the directive in it again.

  * `Text.Trims text core`: a text is blanks around a core.  `trim_eq_iff`: trimming
    leaves the core;
  * `Line.Directs directive line gap rest`: the code of a line is a gap, a directive and
    a rest.  `head?_tokens_eq_some_iff`: such lines have the directive as first token;
  * `Line.soughtArgument`: the argument of a directive, by a search.  `located_of_directs`:
    what it finds on a line with an inclusion;
  * `Traversal.Reaches t line`: a line is next in a traversal, without an error before
    it.  `iterate_eq_emptyInclude_iff`: a traversal fails for the lack of a name just if
    it reaches an inclusion without one;
  * `includedNames_located`: the name is the rest of the line, and it is missing just
    if the rest is blank.
-/
import RegisterMachine.Proofs.ByteSearch
import RegisterMachine.Proofs.Renderings
import RegisterMachine.Proofs.Reuse

namespace RegisterMachine

/-! ## Trimming -/

namespace Text

/-- A text is blanks around a core, which neither begins nor ends with a blank. -/
def Trims (text core : List Char) : Prop :=
  ∃ front back, text = front ++ core ++ back ∧ (∀ c ∈ front ++ back, isBlank c = true) ∧
    (∀ c ∈ core.head?, isBlank c = false) ∧ ∀ c ∈ core.getLast?, isBlank c = false

/-- A text is cut where a property of its characters ends. -/
theorem exists_split (p : Char → Bool) (text : List Char) :
    ∃ front rest, text = front ++ rest ∧ (∀ c ∈ front, p c = true) ∧
      ∀ c ∈ rest.head?, p c = false := by
  refine ⟨text.takeWhile p, text.dropWhile p, List.takeWhile_append_dropWhile.symm,
    List.all_eq_true.1 List.all_takeWhile, fun c hc => ?_⟩
  have hnot := List.head?_dropWhile_not p text
  rwa [Option.mem_def.1 hc] at hnot

theorem dropWhile_append_of_head? {p : Char → Bool} {front rest : List Char}
    (hf : ∀ c ∈ front, p c = true) (hr : ∀ c ∈ rest.head?, p c = false) :
    (front ++ rest).dropWhile p = rest := by
  rw [List.dropWhile_append_of_pos hf]
  cases rest with
  | nil => rfl
  | cons c rest => exact List.dropWhile_cons_of_neg (by simp [hr c rfl])

theorem exists_trims (text : List Char) : ∃ core, Trims text core := by
  obtain ⟨front, rest, rfl, hfront, hrest⟩ := exists_split isBlank text
  obtain ⟨back, core, hr, hback, hcore⟩ := exists_split isBlank rest.reverse
  obtain rfl : rest = core.reverse ++ back.reverse := by
    rw [← List.reverse_append, ← hr, List.reverse_reverse]
  refine ⟨core.reverse, front, back.reverse, (List.append_assoc _ _ _).symm,
    List.forall_mem_append.2 ⟨hfront, by simpa using hback⟩, fun c hc => hrest c ?_,
    by rwa [List.getLast?_reverse]⟩
  rw [List.head?_append, Option.mem_def.1 hc]
  rfl

theorem trims_nil_iff {text : List Char} : Trims text [] ↔ ∀ c ∈ text, isBlank c = true := by
  constructor
  · rintro ⟨front, back, rfl, hblank, -⟩
    rwa [List.append_nil]
  · intro h
    exact ⟨text, [], by simp, by simpa using h, by simp, by simp⟩

theorem Trims.trim_eq {text core : List Char} (h : Trims text core) : trim text = core := by
  cases core with
  | nil =>
    have hall : (text ++ []).dropWhile isBlank = [] :=
      dropWhile_append_of_head? (trims_nil_iff.1 h) nofun
    rw [List.append_nil] at hall
    rw [trim, hall]
    rfl
  | cons c core =>
    obtain ⟨front, back, rfl, hblank, hhead, hlast⟩ := h
    obtain ⟨hfront, hback⟩ := List.forall_mem_append.1 hblank
    have hstart : (front ++ (c :: core ++ back)).dropWhile isBlank = c :: core ++ back :=
      dropWhile_append_of_head? hfront hhead
    have hend : (back.reverse ++ (c :: core).reverse).dropWhile isBlank = (c :: core).reverse :=
      dropWhile_append_of_head? (by simpa using hback) (by rwa [List.head?_reverse])
    rw [trim, List.append_assoc, hstart, List.reverse_append, hend, List.reverse_reverse]

/-- **Trimming leaves what the blanks are around.** -/
theorem trim_eq_iff {text core : List Char} : trim text = core ↔ Trims text core := by
  refine ⟨?_, Trims.trim_eq⟩
  rintro rfl
  obtain ⟨core, h⟩ := exists_trims text
  rwa [h.trim_eq]

end Text

/-! ## Lines with a directive -/

namespace Line

/-- The code of a line is a gap, a directive and a rest, which a separator keeps apart
    from the directive unless it is empty. -/
structure Directs (directive : String) (line : Line) (gap rest : List Char) : Prop where
  code_eq : code line = gap ++ directive.toList ++ rest
  isGap : IsGap gap
  apart : ∀ c ∈ rest.head?, isSeparator c = true

/-- **A line has the directive as its first token** just if only separators stand before
    it, and one or nothing after it. -/
theorem head?_tokens_eq_some_iff {directive : String} (hd : SpellsToken directive.toList)
    {line : Line} :
    line.tokens.head? = some directive ↔ ∃ gap rest, Directs directive line gap rest := by
  constructor
  · intro h
    obtain ⟨gap, tail, hcode, hgap, htail⟩ := Text.exists_split isSeparator (code line)
    obtain ⟨word, rest, rfl, hword, hrest⟩ := Text.exists_split (!isSeparator ·) tail
    have hapart : ∀ c ∈ rest.head?, isSeparator c = true := by simpa using hrest
    rw [← tokens_code, hcode, tokens_gap hgap] at h
    cases word with
    | nil =>
      -- the rest would begin with a separator, and with none
      cases rest with
      | nil => cases h
      | cons c rest =>
        have hc := htail c rfl
        rw [hapart c rfl] at hc
        cases hc
    | cons c word =>
      have hspells : SpellsToken (c :: word) := by
        refine spellsToken_of_forall (List.cons_ne_nil c word) fun d hd => ⟨?_, ?_⟩
        · simpa using hword d hd
        · rintro rfl
          refine hash_not_mem_code line ?_
          rw [hcode]
          exact List.mem_append_right gap (List.mem_append_left rest hd)
      rw [tokens_word hspells fun d hd => Or.inl (hapart d hd)] at h
      obtain rfl : String.ofList (c :: word) = directive := Option.some.inj h
      refine ⟨gap, rest, ?_, hgap, hapart⟩
      rw [String.toList_ofList, hcode, List.append_assoc]
  · rintro ⟨gap, rest, hcode, hgap, hsep⟩
    have hword : tokens (directive.toList ++ rest) =
        String.ofList directive.toList :: tokens rest :=
      tokens_word hd fun c hc => Or.inl (hsep c hc)
    rw [← tokens_code, hcode, List.append_assoc, tokens_gap hgap, hword, String.ofList_toList]
    rfl

/-- What stands after a directive, wherever it is first found on a line, without the
    blanks around it.  There is no answer if the line may not be cut there. -/
def soughtArgument (line : Line) (directive : String) : Option String :=
  match byteOffset? directive (String.ofList line.code) with
  | none => some ""
  | some start =>
    (fromByte? (String.ofList line.code) (start + directive.utf8ByteSize)).map fun rest =>
      String.ofList (Text.trim rest.toList)

/-- **A search always has an answer.** -/
theorem isSome_soughtArgument (line : Line) {directive : String} (hd : directive ≠ "") :
    (line.soughtArgument directive).isSome = true := by
  unfold soughtArgument
  cases hs : byteOffset? directive (String.ofList line.code) with
  | none => rfl
  | some start =>
    obtain ⟨-, hvalid⟩ := isValid_of_byteOffset? hd hs
    simp only [fromByte?, dif_pos hvalid, Option.map_some, Option.isSome_some]

end Line

open SourceLine (includeDirective)

/-! ## Lines with an inclusion -/

theorem spellsToken_includeDirective : SpellsToken includeDirective.toList where
  ne_nil := by decide
  not_mem c hc := by fin_cases hc <;> decide

theorem utf8_includeDirective : ∃ bytes, utf8 includeDirective = '%'.toUInt8 :: bytes :=
  ⟨_, rfl⟩

/-- Separators do not have the first byte of the directive. -/
theorem percent_not_mem_utf8 {gap : List Char} (h : IsGap gap) :
    '%'.toUInt8 ∉ utf8 (String.ofList gap) := by
  rw [utf8_eq, String.toList_ofList, List.mem_flatMap]
  rintro ⟨c, hc, hb⟩
  have hs := h c hc
  simp only [isSeparator, Bool.or_eq_true, beq_iff_eq, or_assoc] at hs
  rcases hs with rfl | rfl | rfl | rfl <;> revert hb <;> decide

theorem ofList_trim_eq_iff {text : List Char} {name : String} :
    String.ofList (Text.trim text) = name ↔ Text.Trims text name.toList := by
  rw [← Text.trim_eq_iff, ← String.toList_inj, String.toList_ofList]

namespace Expansion

/-- An inclusion fails for the lack of a name just if that is empty.  Any other has
    an event, or an error of its own. -/
theorem ofFile_eq_emptyInclude_iff {fs : FileSystem} {d : Nat} {opened : List String}
    {name : String} {definitions : Definitions} :
    ofFile fs d opened name definitions = error definitions .emptyInclude ↔ name = "" := by
  constructor
  · intro h
    by_contra hn
    have hresult := congrArg (·.report.result) h
    have hevents := congrArg (·.report.events) h
    cases d with
    | zero =>
      simp only [ofFile, if_neg hn] at hresult
      cases hresult
    | succ d =>
      by_cases ho : name ∈ opened
      · simp only [ofFile, if_neg hn, if_pos ho] at hresult
        cases hresult
      · simp only [ofFile, if_neg hn, if_neg ho] at hevents
        split at hevents <;> cases hevents
  · rintro rfl
    cases d <;> rfl

end Expansion

/-- A search finds the directive of an inclusion, and with it the name of the file. -/
structure Located (line : Line) (gap rest : List Char) : Prop where
  /-- The directive is found right after the gap, even if there are more of them. -/
  offset : byteOffset? includeDirective (String.ofList line.code) =
    some (String.ofList gap).utf8ByteSize
  /-- The code may be cut where the directive ends. -/
  isValid : (String.Pos.Raw.mk
    ((String.ofList gap).utf8ByteSize + includeDirective.utf8ByteSize)).IsValid
      (String.ofList line.code)
  /-- What is left after the cut is the rest. -/
  remainder : fromByte? (String.ofList line.code)
    ((String.ofList gap).utf8ByteSize + includeDirective.utf8ByteSize) = some (String.ofList rest)
  /-- So the search gives the rest without the blanks around it. -/
  sought : ∀ name, line.soughtArgument includeDirective = some name ↔ Text.Trims rest name.toList
  /-- No search is needed to find the same. -/
  argument : line.soughtArgument includeDirective =
    some (SourceLine.argument line includeDirective.length)
  /-- It is the name that the line is read with. -/
  inclusion : ∀ name, SourceLine.ofLine line = .inclusion name ↔ Text.Trims rest name.toList
  /-- The inclusion itself fails for the lack of a name just if the rest is blank, whatever
      is open or defined. -/
  unnamed : ∀ fs depth opened definitions,
    Expansion.ofLine (Expansion.ofFile fs depth opened) definitions (SourceLine.ofLine line) =
      Expansion.error definitions .emptyInclude ↔ ∀ c ∈ rest, Text.isBlank c = true

section
variable {line : Line} {gap rest : List Char} (h : line.Directs includeDirective gap rest)
include h

theorem Line.Directs.ofList_code : String.ofList line.code =
    String.ofList gap ++ (includeDirective ++ String.ofList rest) := by
  rw [h.code_eq, List.append_assoc, String.ofList_append, String.ofList_append,
    String.ofList_toList]

theorem Line.Directs.argument_eq :
    SourceLine.argument line includeDirective.length = String.ofList (Text.trim rest) := by
  have hgap : line.code.dropWhile isSeparator = includeDirective.toList ++ rest := by
    rw [h.code_eq, List.append_assoc, List.dropWhile_append_of_pos h.isGap]
    rfl
  rw [SourceLine.argument, hgap, ← String.length_toList, List.drop_left]

theorem Line.Directs.ofLine_eq :
    SourceLine.ofLine line = .inclusion (String.ofList (Text.trim rest)) := by
  rw [ofLine_eq_inclusion_iff, included?, h.argument_eq]
  exact if_pos ((Line.head?_tokens_eq_some_iff spellsToken_includeDirective).2 ⟨gap, rest, h⟩)

/-- **A search finds the name that the line is read with.** -/
theorem located_of_directs : Located line gap rest := by
  obtain ⟨bytes, hbytes⟩ := utf8_includeDirective
  have hoffset : byteOffset? includeDirective (String.ofList line.code) =
      some (String.ofList gap).utf8ByteSize := by
    rw [h.ofList_code]
    exact byteOffset?_append hbytes (percent_not_mem_utf8 h.isGap) _
  have hremainder : fromByte? (String.ofList line.code)
      ((String.ofList gap).utf8ByteSize + includeDirective.utf8ByteSize) =
        some (String.ofList rest) := by
    rw [h.ofList_code, ← String.append_assoc, ← String.utf8ByteSize_append]
    exact fromByte?_append _ _
  have hsought : line.soughtArgument includeDirective = some (String.ofList (Text.trim rest)) := by
    rw [Line.soughtArgument, hoffset]
    dsimp only
    rw [hremainder, Option.map_some, String.toList_ofList]
  refine ⟨hoffset, (isValid_of_byteOffset? (by decide) hoffset).2, hremainder, fun name => ?_,
    ?_, fun name => ?_, fun fs depth opened definitions => ?_⟩
  · rw [hsought, Option.some.injEq, ofList_trim_eq_iff]
  · rw [hsought, h.argument_eq]
  · rw [h.ofLine_eq, SourceLine.inclusion.injEq, ofList_trim_eq_iff]
  · rw [h.ofLine_eq, ← Text.trims_nil_iff]
    exact Expansion.ofFile_eq_emptyInclude_iff.trans ofList_trim_eq_iff

end

/-! ## Missing names -/

namespace Expansion

/-- A line of a source, or of a file. -/
def Occurs (fs : FileSystem) (source : String) (line : Line) : Prop :=
  line ∈ Text.lines source.toList ∨
    ∃ path text, fs.read path = .ok text ∧ line ∈ Text.lines text.toList

theorem entry_ne_emptyInclude (definitions : Definitions) (words : List String) :
    definitions.entry words ≠ .error .emptyInclude := by
  intro h
  rcases words with _ | ⟨name, _ | ⟨word, words⟩⟩
  · cases h
  · cases h
  · simp only [Definitions.entry] at h
    split at h <;> cases h

namespace Traversal

/-- There is no error so far, and a line is next. -/
structure Reaches (t : Traversal) (line : SourceLine) : Prop where
  ok : ∃ out, t.done.report.result = .ok out
  next : t.lines.head? = some line

section
variable {fs : FileSystem} {t : Traversal} {out : List (List String)}

theorem step_of_failed {e : ExpansionError} (h : t.done.report.result = .error e) :
    (t.step fs).done = t.done := by
  obtain ⟨done, opened, lines, waiting⟩ := t
  cases lines with
  | cons line rest => rw [step_of_error h]
  | nil => cases waiting <;> rfl

variable (h : t.done.report.result = .ok out)
include h

theorem result_andThen_eq_error_iff {next : Definitions → Expansion} {e : ExpansionError} :
    (t.andThen next).done.report.result = .error e ↔
      (next t.done.definitions).report.result = .error e := by
  rw [Traversal.andThen, Expansion.andThen, h]
  exact map_eq_error_iff

theorem openFile_eq_emptyInclude_iff {name : String} :
    (t.openFile fs name).done.report.result = .error .emptyInclude ↔ name = "" := by
  unfold openFile
  split_ifs with hn ho
  · rw [result_andThen_eq_error_iff h]
    exact iff_of_true rfl hn
  · rw [result_andThen_eq_error_iff h]
    exact iff_of_false nofun hn
  cases fs.read name with
  | error cause =>
    rw [result_andThen_eq_error_iff h]
    exact iff_of_false nofun hn
  | ok text =>
    refine iff_of_false (fun he => ?_) hn
    rw [Expansion.andThen, h] at he
    cases he

theorem perform_eq_emptyInclude_iff {line : SourceLine} :
    (t.perform fs line).done.report.result = .error .emptyInclude ↔ line = .inclusion "" := by
  cases line with
  | code tokens =>
    rw [perform, result_andThen_eq_error_iff h]
    exact iff_of_false nofun nofun
  | inclusion name => rw [perform, openFile_eq_emptyInclude_iff h, SourceLine.inclusion.injEq]
  | definition words =>
    rw [perform, result_andThen_eq_error_iff h]
    refine iff_of_false (fun he => ?_) nofun
    have hne := entry_ne_emptyInclude t.done.definitions words
    cases hw : t.done.definitions.entry words with
    | error e =>
      rw [hw] at he hne
      cases he
      exact hne rfl
    | ok entry =>
      rw [hw] at he
      cases he

/-- **A step fails for the lack of a name** just if the next line is an inclusion
    without one. -/
theorem step_eq_emptyInclude_iff : (t.step fs).done.report.result = .error .emptyInclude ↔
    t.lines.head? = some (.inclusion "") := by
  obtain ⟨done, opened, lines, waiting⟩ := t
  cases lines with
  | cons line rest =>
    have hrest : (Traversal.mk done opened rest waiting).done.report.result = .ok out := h
    rw [step_of_ok h, perform_eq_emptyInclude_iff hrest, List.head?_cons, Option.some.injEq]
  | nil =>
    have hdone : (step fs ⟨done, opened, [], waiting⟩).done = done := by cases waiting <;> rfl
    rw [hdone, h]
    exact iff_of_false nofun nofun

/-- **A traversal fails for the lack of a name** just if it has come to an inclusion
    without one.  The induction is on the number of steps, since no step takes an error
    back. -/
theorem iterate_eq_emptyInclude_iff (n : Nat) :
    ((step fs)^[n] t).done.report.result = .error .emptyInclude ↔
      ∃ k < n, ((step fs)^[k] t).Reaches (.inclusion "") := by
  induction n with
  | zero => simp [h]
  | succ n ih =>
    simp only [Nat.lt_succ_iff_lt_or_eq, or_and_right, exists_or, exists_eq_left, ← ih]
    rw [Function.iterate_succ_apply']
    cases hn : ((step fs)^[n] t).done.report.result with
    | error e =>
      rw [step_of_failed hn, hn, or_iff_left]
      rintro ⟨⟨out, hout⟩, -⟩
      cases hn.symm.trans hout
    | ok out =>
      rw [step_eq_emptyInclude_iff hn, or_iff_right nofun]
      exact ⟨fun hnext => ⟨⟨out, hn⟩, hnext⟩, Reaches.next⟩

end

end Traversal

variable {fs : FileSystem} {definitions : Definitions} {source : String}

theorem ofSource_eq_emptyInclude_iff :
    (ofSource fs definitions source).report.result = .error .emptyInclude ↔
      ∃ n, ((Traversal.step fs)^[n] (start ⟨definitions, []⟩ source)).Reaches (.inclusion "") := by
  obtain ⟨n, hn⟩ := exists_iterate_start fs ⟨definitions, []⟩ source
  have hstart : (start ⟨definitions, []⟩ source).done.report.result = .ok [] := rfl
  have hiff : ((Traversal.step fs)^[n] (start ⟨definitions, []⟩ source)).done.report.result =
      .error .emptyInclude ↔ _ := Traversal.iterate_eq_emptyInclude_iff hstart n
  rw [hn] at hiff
  refine hiff.trans ⟨fun ⟨k, _, hk⟩ => ⟨k, hk⟩, fun ⟨k, hk⟩ => ⟨k, ?_, hk⟩⟩
  -- no line is next after the end
  by_contra hle
  have hfinished : ((Traversal.step fs)^[n] (start ⟨definitions, []⟩ source)).Finished := by
    rw [hn]
    exact ⟨rfl, rfl⟩
  have hnext := hk.next
  rw [Traversal.iterate_eq_of_le hfinished (Nat.le_of_not_lt hle), hn] at hnext
  cases hnext

/-- A line that a traversal comes to is one of the source or of a file. -/
theorem exists_occurs {n : Nat} {next : SourceLine}
    (h : ((Traversal.step fs)^[n] (start ⟨definitions, []⟩ source)).Reaches next) :
    ∃ line, Occurs fs source line ∧ SourceLine.ofLine line = next := by
  have hstart : Traversal.Reads (fun next => ∃ line, Occurs fs source line ∧
      SourceLine.ofLine line = next) (start ⟨definitions, []⟩ source) := by
    refine ⟨fun next hm => ?_, List.forall_mem_nil _⟩
    obtain ⟨line, hl, rfl⟩ := List.mem_map.1 hm
    exact ⟨line, Or.inl hl, rfl⟩
  refine (hstart.iterate (fun path text hr next hm => ?_) n).lines next
    (List.mem_of_mem_head? h.next)
  obtain ⟨line, hl, rfl⟩ := List.mem_map.1 hm
  exact ⟨line, Or.inr ⟨path, text, hr, hl⟩, rfl⟩

end Expansion

/-! ## Names and searches -/

/-- **The name of an included file is the rest of its line**, after the directive and
    without the blanks around it.  The lines with an inclusion are those whose code is
    separators, the directive, and nothing or a separator with what follows it.  On such
    a line a search for the directive comes to the first token, so it finds the name that
    the line is read with, and on no line does it cut a character.  The name is missing
    just if the rest is blank; and a source fails for the lack of a name just if its
    traversal comes to such a line. -/
theorem includedNames_located :
    (∀ line : Line,
      (line.tokens.head? = some includeDirective ↔
        ∃ gap rest, line.Directs includeDirective gap rest) ∧
      ((∃ name, SourceLine.ofLine line = .inclusion name) ↔
        line.tokens.head? = some includeDirective)) ∧
    (∀ (line : Line) (gap rest : List Char), line.Directs includeDirective gap rest →
      Located line gap rest) ∧
    (∀ text core : List Char, Text.trim text = core ↔ Text.Trims text core) ∧
    (∀ line : Line, (line.soughtArgument includeDirective).isSome = true) ∧
    ∀ (fs : FileSystem) (definitions : Definitions) (source : String),
      (Expansion.ofSource fs definitions source).report.result = .error .emptyInclude ↔
        ∃ (n : Nat) (line : Line) (gap rest : List Char),
          ((Expansion.Traversal.step fs)^[n]
            (Expansion.start ⟨definitions, []⟩ source)).Reaches (SourceLine.ofLine line) ∧
          Expansion.Occurs fs source line ∧ line.Directs includeDirective gap rest ∧
          ∀ c ∈ rest, Text.isBlank c = true := by
  have hkind : ∀ line : Line, line.tokens.head? = some includeDirective ↔
      ∃ gap rest, line.Directs includeDirective gap rest :=
    fun _ => Line.head?_tokens_eq_some_iff spellsToken_includeDirective
  have hinclusion : ∀ line : Line, (∃ name, SourceLine.ofLine line = .inclusion name) ↔
      line.tokens.head? = some includeDirective := by
    intro line
    simp [ofLine_eq_inclusion_iff, included?]
  refine ⟨fun line => ⟨hkind line, hinclusion line⟩, fun _ _ _ => located_of_directs,
    fun _ _ => Text.trim_eq_iff, fun line => line.isSome_soughtArgument (by decide),
    fun fs definitions source => ?_⟩
  rw [Expansion.ofSource_eq_emptyInclude_iff]
  constructor
  · rintro ⟨n, hn⟩
    obtain ⟨line, hl, ho⟩ := Expansion.exists_occurs hn
    obtain ⟨gap, rest, hd⟩ := (hkind line).1 ((hinclusion line).1 ⟨"", ho⟩)
    rw [← ho] at hn
    exact ⟨n, line, gap, rest, hn, hl, hd,
      Text.trims_nil_iff.1 (((located_of_directs hd).inclusion "").1 ho)⟩
  · rintro ⟨n, line, gap, rest, hn, -, hd, hblank⟩
    have ho : SourceLine.ofLine line = .inclusion "" :=
      ((located_of_directs hd).inclusion "").2 (Text.trims_nil_iff.2 hblank)
    exact ⟨n, ho ▸ hn⟩

/-- The name has the directive, separators and a letter of two bytes in it. -/
def repeatingLine : Line :=
  ",\t%include \u00a0lib, %include é.asm\u3000 # %include end".toList

/-- There are only blanks between the directive and the comment. -/
def namelessLine : Line :=
  " %include\t\u2003 # %include end".toList

theorem includedNames_located_repeatingLine :
    repeatingLine.soughtArgument includeDirective = some "lib, %include é.asm" ∧
    SourceLine.ofLine repeatingLine = .inclusion "lib, %include é.asm" ∧
    ∀ definitions, Expansion.ofLine (Expansion.ofFile (.ofTable []) 1 []) definitions
      (SourceLine.ofLine namelessLine) = Expansion.error definitions .emptyInclude := by
  obtain ⟨-, hlocated, -⟩ := includedNames_located
  have hrepeating : repeatingLine.Directs includeDirective [',', '\t']
      " \u00a0lib, %include é.asm\u3000 ".toList :=
    ⟨by decide, by decide, by rintro c ⟨⟩; rfl⟩
  have hnameless : namelessLine.Directs includeDirective [' '] "\t\u2003 ".toList :=
    ⟨by decide, by decide, by rintro c ⟨⟩; rfl⟩
  have htrims : Text.Trims " \u00a0lib, %include é.asm\u3000 ".toList
      "lib, %include é.asm".toList :=
    ⟨" \u00a0".toList, "\u3000 ".toList, by decide, List.all_eq_true.1 (by decide),
      by rintro c ⟨⟩; rfl, by rintro c ⟨⟩; rfl⟩
  have hblank : ∀ c ∈ "\t\u2003 ".toList, Text.isBlank c = true :=
    List.all_eq_true.1 (by decide)
  have hname := hlocated _ _ _ hrepeating
  have hmissing := hlocated _ _ _ hnameless
  exact ⟨(hname.sought _).2 htrims, (hname.inclusion _).2 htrims,
    fun definitions => (hmissing.unnamed _ _ _ definitions).2 hblank⟩

end RegisterMachine
